import TypeAlias.Proofs.Definitions.Checks
import TypeAlias.Proofs.Environment.RegistrationOrder
import TypeAlias.Proofs.TypeNames

/-!
# Converting documents

A document is kept with its names as texts, and the texts are read again when it is converted. That
can fail for a text that is no name, and so can taking the last of the segments of a text; and only
so many conversions can be nested in each other. For a document that is not nested too deeply it
never fails: the conversion comes to an environment, unless something cannot be registered.
-/

namespace TypeAlias

namespace Definitions

/-- Why a document cannot be converted. -/
inductive ConversionError where
  /-- The text is no name. -/
  | malformed (text : String)
  /-- The last segment is taken of a text without segments. -/
  | noSegment (text : String)
  /-- Conversions are nested too deeply. -/
  | tooDeep
  | registration (e : RegistrationError)
  deriving DecidableEq

/-- Reads a name in a text. -/
def readName (text : String) : Except ConversionError TypeName := do
  let cs := Text.trim text.toList
  let parts := TypeName.segments cs
  if parts = [] then
    throw (.malformed text)
  match parts.getLast? with
  | none => throw (.noSegment text)
  | some last =>
    return {
      name := String.ofList last
      scope := parts.dropLast.map String.ofList
      absolute := [':', ':'].isPrefixOf cs }

/-- A text that is a name can be read. -/
theorem readName_eq {text : String} {n : TypeName} (h : TypeName.parse? text = some n) :
    readName text = .ok n := by
  obtain ⟨before, last, hparts, rfl⟩ := TypeName.exists_segments h
  unfold readName
  dsimp only
  rw [hparts, if_neg (List.append_ne_nil_of_right_ne_nil _ (List.cons_ne_nil _ _)),
    List.getLast?_concat, List.dropLast_concat]
  rfl

namespace TypeNode

/-- Converts the parts of a signature in order. -/
def readParts (read : TypeNode → Except ConversionError TypeExpr)
    (s : Signature TypeNode (Option TypeNode)) :
    Except ConversionError (Signature TypeExpr TypeExpr) := do
  let required ← s.required.mapM read
  let optional ← s.optional.mapM read
  let rest ← s.rest.mapM read
  let keywords ← s.keywords.mapM fun e => return (e.1, ← read e.2)
  let returns ← s.returns.mapM read
  return { required, optional, rest, keywords, returns := returns.getD voidType }

mutual

/-- Converts a type, when a given number of conversions can be nested in each other. -/
def readType : Nat → TypeNode → Except ConversionError TypeExpr
  | 0, _ => throw .tooDeep
  | _ + 1, base name => return .base name
  | _ + 1, parameter name => return .parameter name
  | _ + 1, literal value => return .literal value
  | _ + 1, classSingleton name => return .classSingleton (← readName name.text)
  | room + 1, classInstance name args =>
    return .classInstance (← readName name.text) (← args.mapM (readType room))
  | room + 1, interface name args =>
    return .interface (← readName name.text) (← args.mapM (readType room))
  | room + 1, aliasInstance name args =>
    return .aliasInstance (← readName name.text) (← args.mapM (readType room))
  | room + 1, union first others => return .union (← (first :: others).mapM (readType room))
  | room + 1, intersection first others =>
    return .intersection (← (first :: others).mapM (readType room))
  | room + 1, optional type => return .optional (← readType room type)
  | room + 1, tuple types => return .tuple (← types.mapM (readType room))
  | room + 1, record fields =>
    return .record (← fields.mapM fun e => return (e.1, ← readType room e.2))
  | room + 1, function s => return .function (← readParts (readType room) s)
  | room + 1, block b => return .block ⟨← readSignature room b.signature, b.required⟩
  | room + 1, proc s b => do
    let block ← b.mapM (readBlock room)
    return .proc (← readSignature room s) block

/-- Converts a function where nothing else can stand. -/
def readSignature : Nat → Signature TypeNode (Option TypeNode) →
    Except ConversionError (Signature TypeExpr TypeExpr)
  | 0, _ => throw .tooDeep
  | room + 1, s => readParts (readType room) s

/-- Converts a block where nothing else can stand. -/
def readBlock : Nat → Block TypeNode (Option TypeNode) →
    Except ConversionError (Block TypeExpr TypeExpr)
  | 0, _ => throw .tooDeep
  | room + 1, b => return ⟨← readSignature room b.signature, b.required⟩

end

theorem toTypes_eq (nodes : List TypeNode) : toTypes nodes = nodes.map toType := by
  induction nodes with
  | nil => rfl
  | cons node nodes ih => rw [toTypes, ih, List.map_cons]

theorem toFields_eq (fields : List (String × TypeNode)) :
    toFields fields = fields.map fun e => (e.1, e.2.toType) := by
  induction fields with
  | nil => rfl
  | cons e fields ih => rw [toFields, ih, List.map_cons]

variable {room : Nat} {read : TypeNode → Except ConversionError TypeExpr}

theorem mapM_read (nodes : List TypeNode) (h : ∀ t ∈ nodes, read t = .ok t.toType) :
    nodes.mapM read = .ok (toTypes nodes) := by
  rw [toTypes_eq]
  exact mapM_ok h

theorem mapM_read_fields (fields : List (String × TypeNode))
    (h : ∀ t ∈ fields.map Prod.snd, read t = .ok t.toType) :
    fields.mapM (fun e => return (e.1, ← read e.2)) = .ok (toFields fields) := by
  rw [toFields_eq]
  apply mapM_ok
  intro e he
  rw [h e.2 (List.mem_map_of_mem he)]
  rfl

theorem mapM_read? (node : Option TypeNode) (h : ∀ t ∈ node, read t = .ok t.toType) :
    node.mapM read = .ok (toType? node) := by
  cases node with
  | none => rfl
  | some t =>
    show (some <$> read t : Except ConversionError _) = _
    rw [h t rfl]
    rfl

/-- A signature is converted when its parts are. -/
theorem readParts_eq {s : Signature TypeNode (Option TypeNode)}
    (h : ∀ t ∈ (function s).members, read t = .ok t.toType) :
    readParts read s = .ok (toSignature s) := by
  obtain ⟨required, optional, rest, keywords, returns⟩ := s
  simp only [members, Signature.parameters, List.mem_append, Option.mem_toList, List.mem_map] at h
  rw [readParts]
  dsimp only
  rw [mapM_read required fun t ht => h t (.inl (.inl (.inl (.inl ht)))),
    mapM_read optional fun t ht => h t (.inl (.inl (.inl (.inr ht)))),
    mapM_read? rest fun t ht => h t (.inl (.inl (.inr ht))),
    mapM_read_fields keywords fun t ht => h t (.inl (.inr (List.mem_map.mp ht))),
    mapM_read? returns fun t ht => h t (.inr ht)]
  rfl

/-- What a number of nested conversions comes to for the types that fit in it. -/
structure Converts (room : Nat) : Prop where
  type : ∀ t : TypeNode, t.FitsIn room → readType room t = .ok t.toType
  signature : ∀ s, (function s).FitsIn room → readSignature room s = .ok (toSignature s)
  block : ∀ b, (block b).FitsIn room → readBlock room b = .ok (toBlock b)

/-- One level more. -/
theorem Converts.next (h : Converts room) : Converts (room + 1) := by
  constructor
  case type =>
    intro t ht
    have hread : ∀ m ∈ t.members, readType room m = .ok m.toType := fun m hm => h.type m (ht m hm)
    cases t with
    | base name => rfl
    | parameter name => rfl
    | literal value => rfl
    | classSingleton name =>
      rw [readType, readName_eq name.parse_text]
      rfl
    | classInstance name args =>
      rw [readType, readName_eq name.parse_text, mapM_read args hread]
      rfl
    | interface name args =>
      rw [readType, readName_eq name.parse_text, mapM_read args hread]
      rfl
    | aliasInstance name args =>
      rw [readType, readName_eq name.parse_text, mapM_read args hread]
      rfl
    | union first others =>
      rw [readType, mapM_read (first :: others) hread]
      rfl
    | intersection first others =>
      rw [readType, mapM_read (first :: others) hread]
      rfl
    | optional type =>
      rw [readType, hread type List.mem_cons_self]
      rfl
    | tuple types =>
      rw [readType, mapM_read types hread]
      rfl
    | record fields =>
      rw [readType, mapM_read_fields fields hread]
      rfl
    | function s =>
      rw [readType, readParts_eq hread]
      rfl
    | block b =>
      obtain ⟨s, required⟩ := b
      rw [readType, h.signature s (ht _ List.mem_cons_self)]
      rfl
    | proc s b =>
      have hs := h.signature s (ht _ List.mem_cons_self)
      cases b with
      | none =>
        rw [readType, hs]
        rfl
      | some b =>
        have hb := h.block b (ht _ (List.mem_cons_of_mem _ List.mem_cons_self))
        show ((some <$> readBlock room b : Except ConversionError _) >>= _) = _
        rw [hb, hs]
        rfl
  case signature => exact fun s hs => readParts_eq fun m hm => h.type m (hs m hm)
  case block =>
    rintro ⟨s, required⟩ hb
    rw [readBlock, h.signature s (hb _ List.mem_cons_self)]
    rfl

/-- A type that is not nested too deeply is converted to the type expression that is written. -/
theorem converts (room : Nat) : Converts room := by
  induction room with
  | zero => exact ⟨fun _ h => h.elim, fun _ h => h.elim, fun _ h => h.elim⟩
  | succ room ih => exact ih.next

end TypeNode

/-- Converts a declaration. -/
def AliasEntry.readDecl (room : Nat) (e : AliasEntry) : Except ConversionError AliasDecl := do
  let name ← readName e.name.text
  let type ← e.type.readType room
  return { name := name.toAbsolute, type, params := e.params }

theorem AliasEntry.readDecl_eq {room : Nat} {e : AliasEntry} (h : e.type.FitsIn room) :
    e.readDecl room = .ok e.toDecl := by
  rw [readDecl, readName_eq e.name.parse_text, (TypeNode.converts room).type e.type h]
  rfl

/-- Converts a declaration and registers it. -/
def AliasEntry.register (room : Nat) (env : Environment) (e : AliasEntry) :
    Except ConversionError Environment := do
  let decl ← e.readDecl room
  (env.addAlias decl).mapError .registration

/-- Converts a module alias. -/
def ModuleEntry.readNames (e : ModuleEntry) : Except ConversionError (TypeName × TypeName) := do
  return (← readName e.name.text, ← readName e.target.text)

theorem ModuleEntry.readNames_eq (e : ModuleEntry) :
    e.readNames = .ok (e.name.name, e.target.name) := by
  rw [readNames, readName_eq e.name.parse_text, readName_eq e.target.parse_text]
  rfl

namespace Document

variable {room : Nat}

/-- Converts a document: all module aliases, which are registered first, and then one declaration
after the other. -/
def readEnvironment (room : Nat) (doc : Document) : Except ConversionError Environment := do
  let modules ← doc.modules.mapM ModuleEntry.readNames
  let env ← (modules.foldlM (fun (env : Environment) m => env.addModuleAlias m.1 m.2) {}).mapError
    .registration
  doc.aliases.foldlM (AliasEntry.register room) env

theorem mapM_readNames (es : List ModuleEntry) :
    es.mapM ModuleEntry.readNames = .ok (es.map fun e => (e.name.name, e.target.name)) :=
  mapM_ok fun e _ => e.readNames_eq

theorem foldlM_register {es : List AliasEntry} (h : ∀ e ∈ es, e.type.FitsIn room)
    (env : Environment) :
    es.foldlM (AliasEntry.register room) env =
      ((es.map AliasEntry.toDecl).foldlM Environment.addAlias env).mapError .registration := by
  induction es generalizing env with
  | nil => rfl
  | cons e es ih =>
    rw [List.foldlM_cons, List.map_cons, List.foldlM_cons, AliasEntry.register,
      AliasEntry.readDecl_eq (h e List.mem_cons_self)]
    show (env.addAlias e.toDecl).mapError _ >>= _ = _
    cases env.addAlias e.toDecl with
    | error r => rfl
    | ok next => exact ih (fun e' he => h e' (List.mem_cons_of_mem _ he)) next

/-- Converting a document fails just when something cannot be registered. -/
theorem readEnvironment_eq {doc : Document} (h : ∀ e ∈ doc.aliases, e.type.FitsIn room) :
    doc.readEnvironment room = doc.toEnvironment.mapError .registration := by
  rw [readEnvironment, mapM_readNames, toEnvironment, Environment.build]
  generalize doc.modules.map (fun e => (e.name.name, e.target.name)) = modules
  show (modules.foldlM (fun (env : Environment) m => env.addModuleAlias m.1 m.2) {}).mapError _ >>=
    _ = _
  cases modules.foldlM (fun (env : Environment) m => env.addModuleAlias m.1 m.2) {} with
  | error r => rfl
  | ok env => exact foldlM_register h env

end Document

end Definitions

end TypeAlias
