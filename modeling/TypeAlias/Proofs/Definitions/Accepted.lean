import TypeAlias.Proofs.Definitions.Conversion

/-!
# What accepted documents make

All that comes out of a document that has been accepted is well formed: wherever there is a union or
an intersection in the type of a declaration, it has members, wherever a name stands, it has a last
segment, and wherever an alias is referred to, the name is that of an alias. What has been declared
stands under absolute names of aliases.
-/

namespace TypeAlias

/-- A name that was read from a text has a last segment. -/
theorem TypeName.name_ne_empty {text : String} {n : TypeName} (h : parse? text = some n) :
    n.name ≠ "" :=
  (segment_of_mem_path h (List.mem_append_right _ List.mem_cons_self)).ne_empty

/-- The kind of a name is that of its last segment. -/
theorem TypeName.kind_congr {n m : TypeName} (h : n.name = m.name) : n.kind = m.kind := by
  unfold kind
  rw [h]

namespace TypeExpr

/-- The name in an expression itself, its sub-expressions aside. -/
def name? : TypeExpr → Option TypeName
  | classSingleton name | classInstance name _ | interface name _ | aliasInstance name _ =>
    some name
  | _ => none

/-- The alternatives or the parts of an expression that must have some. -/
def parts? : TypeExpr → Option (List TypeExpr)
  | union types | intersection types => some types
  | _ => none

/-- An expression is well formed, its sub-expressions aside. -/
structure Proper (t : TypeExpr) : Prop where
  parts : ∀ types, t.parts? = some types → types ≠ []
  segment : ∀ name, t.name? = some name → name.name ≠ ""
  reference : ∀ name, t.reference? = some name → name.kind = .aliasName

/-- An expression is well formed at every depth. -/
def ProperThroughout (t : TypeExpr) : Prop :=
  ∀ t' ∈ t.preorder, t'.Proper

/-- An expression with neither a name nor parts of its own. -/
theorem proper_of_none {t : TypeExpr} (hp : t.parts? = none) (hn : t.name? = none)
    (hr : t.reference? = none) : t.Proper := by
  constructor
  · simp [hp]
  · simp [hn]
  · simp [hr]

/-- An expression with a name, which is that of an alias where one is referred to. -/
theorem proper_of_name {t : TypeExpr} {name : TypeName} (hp : t.parts? = none)
    (hn : t.name? = some name) (hs : name.name ≠ "")
    (hr : ∀ target, t.reference? = some target → target.kind = .aliasName) : t.Proper := by
  constructor
  · simp [hp]
  · intro _ h
    rw [hn] at h
    cases h
    exact hs
  · exact hr

theorem properThroughout_of_children {t : TypeExpr} (h : t.Proper)
    (hc : ∀ c ∈ t.children, c.ProperThroughout) : t.ProperThroughout := by
  intro t' ht'
  rw [preorder_eq] at ht'
  rcases List.mem_cons.mp ht' with rfl | ht'
  · exact h
  · obtain ⟨c, hcm, ht'⟩ := List.mem_flatMap.mp ht'
    exact hc c hcm t' ht'

end TypeExpr

namespace Definitions

namespace TypeNode

/-- What is not written of a type: the result of a function that does not say it. -/
def implied : TypeNode → List TypeExpr
  | function ⟨_, _, _, _, none⟩ => [voidType]
  | _ => []

/-- The sub-expressions of a type are what its members are converted to, and what is implied. -/
theorem children_toType (t : TypeNode) :
    t.toType.children = t.members.map toType ++ t.implied := by
  cases t with
  | base | parameter | literal | classSingleton | optional => rfl
  | classInstance _ args | interface _ args | aliasInstance _ args | tuple args =>
    simp [toType, TypeExpr.children, members, implied, toTypes_eq]
  | union first others | intersection first others =>
    simp [toType, TypeExpr.children, members, implied, toTypes_eq]
  | record fields =>
    simp [toType, TypeExpr.children, members, implied, toFields_eq]
  | function s =>
    obtain ⟨required, optional, rest, keywords, returns⟩ := s
    cases rest <;> cases returns <;>
      simp [toType, toSignature, TypeExpr.children, Signature.parameters, members, implied,
        toTypes_eq, toFields_eq, toType?]
  | block b =>
    obtain ⟨s, required⟩ := b
    rfl
  | proc s b =>
    cases b with
    | none => rfl
    | some b => rfl

theorem proper_toType (t : TypeNode) : t.toType.Proper := by
  cases t with
  | base | parameter | literal | optional | tuple | record | function | block | proc =>
    exact TypeExpr.proper_of_none rfl rfl rfl
  | classSingleton name | classInstance name _ | interface name _ =>
    apply TypeExpr.proper_of_name rfl rfl (TypeName.name_ne_empty name.parse_text)
    intro _ h
    cases h
  | aliasInstance name _ =>
    apply TypeExpr.proper_of_name rfl rfl (TypeName.name_ne_empty name.parse_text)
    intro _ h
    cases h
    exact name.kind_name
  | union | intersection =>
    constructor
    · intro _ h
      cases h
      exact List.cons_ne_nil _ _
    · intro _ h
      cases h
    · intro _ h
      cases h

theorem properThroughout_voidType : voidType.ProperThroughout :=
  TypeExpr.properThroughout_of_children (TypeExpr.proper_of_none rfl rfl rfl)
    fun _ hc => absurd hc List.not_mem_nil

/-- What is implied is well formed. -/
theorem properThroughout_implied {t : TypeNode} {c : TypeExpr} (hc : c ∈ t.implied) :
    c.ProperThroughout := by
  unfold implied at hc
  split at hc
  · rw [List.mem_singleton.mp hc]
    exact properThroughout_voidType
  · exact absurd hc List.not_mem_nil

/-- What a type is converted to is well formed at every depth. -/
theorem properThroughout_toType {room : Nat} {t : TypeNode} (h : t.FitsIn room) :
    t.toType.ProperThroughout := by
  induction room generalizing t with
  | zero => exact h.elim
  | succ room ih =>
    apply TypeExpr.properThroughout_of_children t.proper_toType
    intro c hc
    rw [children_toType] at hc
    rcases List.mem_append.mp hc with hc | hc
    · obtain ⟨m, hm, rfl⟩ := List.mem_map.mp hc
      exact ih (h m hm)
    · exact properThroughout_implied hc

end TypeNode

end Definitions

/-- A declaration is well formed: it is that of an alias from the top level, and so is its type at
every depth. -/
structure AliasDecl.Proper (decl : AliasDecl) : Prop where
  absolute : decl.name.absolute = true
  segment : decl.name.name ≠ ""
  kind : decl.name.kind = .aliasName
  type : decl.type.ProperThroughout

namespace Environment

/-- Everything in an environment is well formed and stands under its name. -/
def Proper (env : Environment) : Prop :=
  ∀ key decl, env.aliases.get? key = some decl → decl.name = key ∧ decl.Proper

/-- A rewritten name is absolute and has the same last segment. -/
theorem rewrite?_last {env : Environment} {name key : TypeName} (h : env.rewrite? name = some key) :
    key.absolute = true ∧ key.name = name.name := by
  obtain ⟨scope, -, rfl⟩ := Option.map_eq_some_iff.mp h
  exact ⟨rfl, rfl⟩

/-- An environment built of well-formed declarations is well formed. -/
theorem proper_build {modules : List (TypeName × TypeName)} {decls : List AliasDecl}
    {env : Environment} (h : build modules decls = .ok env) (hd : ∀ decl ∈ decls, decl.Proper) :
    env.Proper := by
  intro key decl hkey
  obtain ⟨written, hwritten, hr, rfl⟩ := exists_declared_of_build h hkey
  obtain ⟨habsolute, hlast⟩ := rewrite?_last hr
  have hproper := hd written hwritten
  have hname : key.name = written.name.name := hlast
  refine ⟨rfl, habsolute, ?_, ?_, hproper.type⟩
  · rw [hname]
    exact hproper.segment
  · rw [TypeName.kind_congr hname]
    exact hproper.kind

end Environment

namespace Definitions

open Data Validation

theorem AliasEntry.proper_toDecl {room : Nat} {e : AliasEntry} (h : e.type.FitsIn room) :
    e.toDecl.Proper := by
  have hsegment : e.name.name.name ≠ "" := TypeName.name_ne_empty e.name.parse_text
  exact ⟨rfl, hsegment, e.name.kind_name, TypeNode.properThroughout_toType h⟩

/-- Data that has been accepted as a document can be converted: each declaration is, and the whole
document comes to an environment unless something cannot be registered. All that comes out is well
formed at every depth. -/
theorem Document.converts_of_ofPart {p : Part} {doc : Document} (h : Document.ofPart p = .ok doc) :
    (∀ e ∈ doc.aliases, ∃ decl, e.readDecl mostLevels = .ok decl ∧ decl.Proper) ∧
      doc.readEnvironment mostLevels = doc.toEnvironment.mapError .registration ∧
      ∀ env, doc.toEnvironment = .ok env → env.Proper := by
  have hfits := Document.fitsIn_of_ofPart h
  refine ⟨fun e he => ?_, Document.readEnvironment_eq hfits, fun env henv => ?_⟩
  · exact ⟨e.toDecl, AliasEntry.readDecl_eq (hfits e he), AliasEntry.proper_toDecl (hfits e he)⟩
  · apply Environment.proper_build henv
    intro decl hdecl
    obtain ⟨e, he, rfl⟩ := List.mem_map.mp hdecl
    exact AliasEntry.proper_toDecl (hfits e he)

/-- A document in which a name is written with blanks and in which a block stands in a type. -/
def nestedDocument : Part :=
  .ofValue (.object [
    ("module_aliases", .list [.object [("name", .str "J"), ("target", .str "::Json")]]),
    ("aliases", .list [.object [("name", .str " J::json "), ("type", .object [
      ("kind", .str "union"),
      ("types", .list [
        .object [("kind", .str "alias"), ("name", .str "::J::json")],
        .object [("kind", .str "proc"), ("function", .object []),
          ("block", .object [("function", .object [("rest", .object [
            ("kind", .str "class_instance"), ("name", .str "Array")])])])]])])]])])

theorem Document.converts_of_ofPart_nested : ∃ doc, Document.ofPart nestedDocument = .ok doc ∧
    (∀ e ∈ doc.aliases, ∃ decl, e.readDecl mostLevels = .ok decl ∧ decl.Proper) ∧
      doc.readEnvironment mostLevels = doc.toEnvironment.mapError .registration ∧
      ∀ env, doc.toEnvironment = .ok env → env.Proper := by
  have haccepted : (Document.ofPart nestedDocument).toOption.isSome = true := by decide
  cases hd : Document.ofPart nestedDocument with
  | ok doc => exact ⟨doc, rfl, Document.converts_of_ofPart hd⟩
  | error issues =>
    rw [hd] at haccepted
    cases haccepted

end Definitions

end TypeAlias
