import TypeAlias.Dependencies.Reading
import TypeAlias.Proofs.FirstOccurrences

/-!
# What a definition mentions

A type expression mentions aliases in all of its positions: in the arguments of a name, among the
parts of a compound, in the parameters and the result of a function, and in a block. Reading a
declaration comes to this: its dependencies are the declared aliases that are mentioned, each at its
first mention, those below a guard left out when recursion may be guarded; and the mentions of what
is not declared dangle, below a guard or not.
-/

namespace TypeAlias

namespace TypeExpr

/-- A reference to an alias somewhere in a type expression. -/
structure Mention where
  name : TypeName
  /-- Whether an expression around it is a guard. -/
  belowGuard : Bool
  deriving DecidableEq

mutual

/-- The mentions in an expression, in the order in which they are written. The expression itself may
stand below a guard. -/
def mentions (belowGuard : Bool) : TypeExpr → List Mention
  | base _ => []
  | parameter _ => []
  | literal _ => []
  | classSingleton _ => []
  | classInstance _ args => mentionsAll true args
  | interface _ args => mentionsAll true args
  | aliasInstance name args => ⟨name, belowGuard⟩ :: mentionsAll true args
  | union types => mentionsAll belowGuard types
  | intersection types => mentionsAll belowGuard types
  | optional type => type.mentions belowGuard
  | tuple types => mentionsAll true types
  | record fields => mentionsFields fields
  | function s => mentionsSignature s
  | block b => mentionsBlock b
  | proc s b => mentionsSignature s ++ mentionsBlock? b

/-- The mentions in some expressions, from the first to the last. -/
def mentionsAll (belowGuard : Bool) : List TypeExpr → List Mention
  | [] => []
  | type :: types => type.mentions belowGuard ++ mentionsAll belowGuard types

/-- The mentions in the fields of a record or in the keywords of a function. -/
def mentionsFields : List (String × TypeExpr) → List Mention
  | [] => []
  | (_, type) :: fields => type.mentions true ++ mentionsFields fields

/-- The mentions in the parameter for the rest. -/
def mentionsRest : Option TypeExpr → List Mention
  | none => []
  | some type => type.mentions true

/-- The mentions in the parameters, and then those in the result. -/
def mentionsSignature : Signature TypeExpr TypeExpr → List Mention
  | ⟨req, opt, rest, kws, ret⟩ =>
    mentionsAll true req ++ mentionsAll true opt ++ mentionsRest rest ++ mentionsFields kws ++
      ret.mentions true

/-- The mentions in a block. -/
def mentionsBlock : Block TypeExpr TypeExpr → List Mention
  | ⟨signature, _⟩ => mentionsSignature signature

/-- The mentions in a block that may be there. -/
def mentionsBlock? : Option (Block TypeExpr TypeExpr) → List Mention
  | none => []
  | some b => mentionsBlock b

end

theorem mentionsAll_eq (belowGuard : Bool) (types : List TypeExpr) :
    mentionsAll belowGuard types = types.flatMap (mentions belowGuard) := by
  induction types with
  | nil => rfl
  | cons type types ih => rw [mentionsAll, ih, List.flatMap_cons]

theorem mentionsFields_eq (fields : List (String × TypeExpr)) :
    mentionsFields fields = (fields.map Prod.snd).flatMap (mentions true) := by
  induction fields with
  | nil => rfl
  | cons e fields ih => rw [mentionsFields, ih, List.map_cons, List.flatMap_cons]

theorem mentionsSignature_eq (s : Signature TypeExpr TypeExpr) :
    mentionsSignature s = (s.parameters ++ [s.returns]).flatMap (mentions true) := by
  obtain ⟨req, opt, rest, kws, ret⟩ := s
  have hrest : mentionsRest rest = rest.toList.flatMap (mentions true) := by
    cases rest with
    | none => rfl
    | some type => exact (List.flatMap_singleton _ _).symm
  rw [mentionsSignature, Signature.parameters, mentionsAll_eq, mentionsAll_eq, hrest,
    mentionsFields_eq]
  simp only [List.flatMap_append, List.flatMap_singleton]

/-- An expression mentions what it refers to itself, and then what its sub-expressions mention. -/
theorem mentions_eq (t : TypeExpr) (belowGuard : Bool) :
    t.mentions belowGuard = (t.reference?.map (Mention.mk · belowGuard)).toList ++
      t.children.flatMap (mentions (belowGuard || t.guards)) := by
  cases t with
  | base | parameter | literal | classSingleton => rfl
  | classInstance _ types | interface _ types | aliasInstance _ types | union types
  | intersection types | tuple types =>
    simp [mentions, mentionsAll_eq, reference?, children, guards]
  | optional type => simp [mentions, reference?, children, guards]
  | record fields => simp [mentions, mentionsFields_eq, reference?, children, guards]
  | function s => simp [mentions, mentionsSignature_eq, reference?, children, guards]
  | block b =>
    obtain ⟨s, required⟩ := b
    simp [mentions, mentionsBlock, reference?, children, guards]
  | proc s b =>
    cases b with
    | none => simp [mentions, mentionsBlock?, reference?, children, guards]
    | some b => simp [mentions, mentionsBlock?, reference?, children, guards]

example : mentions false (.union [
      .aliasInstance ⟨"a", [], false⟩ [.aliasInstance ⟨"b", [], false⟩ []],
      .optional (.aliasInstance ⟨"c", [], false⟩ [])]) =
    [⟨⟨"a", [], false⟩, false⟩, ⟨⟨"b", [], false⟩, true⟩, ⟨⟨"c", [], false⟩, false⟩] := rfl

/-- The mentioned names are the references of all expressions in an expression. -/
theorem map_name_mentions (t : TypeExpr) (belowGuard : Bool) :
    (t.mentions belowGuard).map Mention.name = t.preorder.filterMap reference? := by
  induction t using preorder.induct generalizing belowGuard with
  | case1 t ih =>
    have hchildren : (t.children.flatMap (mentions (belowGuard || t.guards))).map Mention.name =
        (t.children.flatMap preorder).filterMap reference? := by
      rw [List.map_flatMap, List.filterMap_flatMap]
      exact List.flatMap_congr fun c hc => ih ⟨c, hc⟩ _
    rw [mentions_eq, preorder_eq, List.map_append, hchildren]
    cases hr : t.reference? with
    | none => rw [List.filterMap_cons_none hr]; rfl
    | some name => rw [List.filterMap_cons_some hr]; rfl

end TypeExpr

namespace Reading

open TypeExpr

variable {env : Environment} {decl : AliasDecl} {r : Reading} {t : TypeExpr}
  {guarded belowGuard : Bool} {ms : List Mention}

/-- The declared aliases that some mentions in a declaration stand for, with repeats. When recursion
may be guarded, mentions below a guard do not count. -/
def targets (env : Environment) (decl : AliasDecl) (guarded : Bool) (ms : List Mention) :
    List TypeName :=
  (ms.filter fun m => !(guarded && m.belowGuard)).filterMap fun m =>
    env.resolve? m.name decl.context

/-- The names among some mentions in a declaration that stand for nothing that is declared. -/
def strays (env : Environment) (decl : AliasDecl) (ms : List Mention) : List TypeName :=
  (ms.map Mention.name).filter fun name => (env.resolve? name decl.context).isNone

/-- What has been found comes from some mentions. -/
structure ComesFrom (env : Environment) (decl : AliasDecl) (guarded : Bool) (r : Reading)
    (ms : List Mention) : Prop where
  found : r.found = (targets env decl guarded ms).eraseDups
  dangling : r.dangling = strays env decl ms

theorem targets_append (ms ms' : List Mention) :
    targets env decl guarded (ms ++ ms') =
      targets env decl guarded ms ++ targets env decl guarded ms' := by
  rw [targets, List.filter_append, List.filterMap_append]
  rfl

theorem targets_singleton (name : TypeName) :
    targets env decl guarded [⟨name, belowGuard⟩] =
      (if guarded && belowGuard then none else env.resolve? name decl.context).toList := by
  rw [targets, List.filter_singleton]
  cases guarded && belowGuard with
  | true => rfl
  | false =>
    cases hr : env.resolve? name decl.context with
    | none => exact List.filterMap_cons_none hr
    | some target => exact List.filterMap_cons_some hr

theorem strays_append (ms ms' : List Mention) :
    strays env decl (ms ++ ms') = strays env decl ms ++ strays env decl ms' := by
  rw [strays, List.map_append, List.filter_append]
  rfl

theorem strays_singleton (m : Mention) :
    strays env decl [m] = if (env.resolve? m.name decl.context).isNone then [m.name] else [] := by
  rw [strays, List.map_singleton, List.filter_singleton, Bool.cond_eq_ite]

/-- Looking at an expression finds what it refers to, unless that has been found before or stands
below a guard. -/
theorem found_look {names : List TypeName} (h : r.found = names.eraseDups) :
    (r.look env decl t belowGuard).found = (names ++ (t.reference?.bind fun name =>
      if belowGuard then none else env.resolve? name decl.context).toList).eraseDups := by
  unfold look
  cases t.reference? with
  | none => simp [h]
  | some name =>
    cases hr : env.resolve? name decl.context with
    | none => simp [hr, h]
    | some target =>
      cases belowGuard with
      | true => simp [hr, h]
      | false =>
        simp only [hr, Bool.false_or, List.contains_iff_mem, Option.bind_some,
          Bool.false_eq_true, if_false, Option.toList_some, eraseDups_concat, ← h]
        split
        · rfl
        · rfl

/-- An expression dangles when it refers to nothing that is declared, below a guard or not. -/
theorem dangling_look : (r.look env decl t belowGuard).dangling = r.dangling ++
    (t.reference?.filter fun name => (env.resolve? name decl.context).isNone).toList := by
  unfold look
  cases t.reference? with
  | none => simp
  | some name =>
    cases hr : env.resolve? name decl.context with
    | none => simp [Option.filter_some, hr]
    | some target =>
      simp only [Option.filter_some, hr, Option.isNone_some]
      split
      · simp
      · simp

/-- Looking at an expression adds what it refers to itself to the mentions. -/
theorem ComesFrom.look (h : r.ComesFrom env decl guarded ms) (t : TypeExpr) (belowGuard : Bool) :
    (r.look env decl t (guarded && belowGuard)).ComesFrom env decl guarded
      (ms ++ (t.reference?.map (Mention.mk · belowGuard)).toList) := by
  constructor
  case found =>
    rw [found_look h.found, targets_append]
    cases t.reference? with
    | none => rfl
    | some name =>
      rw [Option.map_some, Option.toList_some, targets_singleton, Option.bind_some]
  case dangling =>
    rw [dangling_look, h.dangling, strays_append]
    cases t.reference? with
    | none => rfl
    | some name =>
      rw [Option.map_some, Option.toList_some, strays_singleton, Option.filter_some]
      split <;> rfl

/-- Reading expressions adds their mentions. -/
theorem ComesFrom.readAll (h : r.ComesFrom env decl guarded ms) (todo : List (TypeExpr × Bool)) :
    (readAll env decl guarded (todo.map fun e => (e.1, guarded && e.2)) r).ComesFrom env decl
      guarded (ms ++ todo.flatMap fun e => e.1.mentions e.2) := by
  -- The recursion is that of reading where recursion may be guarded, whatever has been found.
  have found : Reading := {}
  induction todo, found using readAll.induct env decl true generalizing r ms with
  | case1 =>
    rw [List.map_nil, Reading.readAll, List.flatMap_nil, List.append_nil]
    exact h
  | case2 t belowGuard rest found below =>
    rename_i ih
    have hbelow : ((guarded && belowGuard) || (guarded && t.guards)) = (guarded && below) :=
      (Bool.and_or_distrib_left _ _ _).symm
    have hmentions : (t.reference?.map (Mention.mk · belowGuard)).toList ++
        (t.children.map (·, below) ++ rest).flatMap (fun e => e.1.mentions e.2) =
          ((t, belowGuard) :: rest).flatMap fun e => e.1.mentions e.2 := by
      rw [List.flatMap_append, List.flatMap_map, List.flatMap_cons, mentions_eq t,
        List.append_assoc]
      rfl
    have hrest := ih (h.look t belowGuard)
    rw [List.append_assoc, hmentions, List.map_append, List.map_map] at hrest
    rw [List.map_cons, Reading.readAll]
    dsimp only
    rw [hbelow]
    exact hrest

/-- What is found in a declaration comes from the mentions in its type. -/
theorem comesFrom_ofDecl (env : Environment) (guarded : Bool) (decl : AliasDecl) :
    (ofDecl env guarded decl).ComesFrom env decl guarded (decl.type.mentions false) := by
  have hnone : ComesFrom env decl guarded {} [] := ⟨rfl, rfl⟩
  have hread := hnone.readAll [(decl.type, false)]
  rw [List.map_singleton, Bool.and_false, List.flatMap_singleton] at hread
  exact ⟨hread.found, hread.dangling⟩

/-- Reading a declaration comes to what its type mentions, in whatever position: the dependencies
are the declared aliases that are mentioned, in order of first mention, and each once, where
mentions below a guard do not count when recursion may be guarded; and the mentions of what is not
declared dangle, in order and with repeats. -/
theorem ofDecl_mentions (env : Environment) (guarded : Bool) (decl : AliasDecl) :
    (ofDecl env guarded decl).found =
        (targets env decl guarded (decl.type.mentions false)).eraseDups ∧
      (ofDecl env guarded decl).found.Nodup ∧
      (ofDecl env guarded decl).dangling = strays env decl (decl.type.mentions false) ∧
      (decl.type.mentions false).map Mention.name = decl.type.preorder.filterMap reference? := by
  have h := comesFrom_ofDecl env guarded decl
  refine ⟨h.found, ?_, h.dangling, map_name_mentions _ _⟩
  rw [h.found]
  exact nodup_eraseDups _

end Reading

end TypeAlias
