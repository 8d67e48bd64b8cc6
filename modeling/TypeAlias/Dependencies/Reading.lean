import TypeAlias.Environment
import TypeAlias.Notice

/-!
# Reading a definition

An alias depends directly on every declared alias that its right-hand side refers to. The right-hand
side is read from left to right, an expression before its sub-expressions. A reference that stands
for no declared alias dangles. When recursion may be guarded, a reference below a guarding
expression is read, and may dangle, but makes no dependency.
-/

namespace TypeAlias

/-- What has been found in a definition so far. -/
structure Reading where
  /-- The declared aliases it depends on, each once, in order of first occurrence. -/
  found : List TypeName := []
  /-- The references that dangle, in order of occurrence. -/
  dangling : List TypeName := []
  /-- What there is to report, the latest first. -/
  notices : List Notice := []

namespace Reading

/-- Looks at one expression, which may stand below a guard. -/
def look (env : Environment) (decl : AliasDecl) (r : Reading) (t : TypeExpr) (belowGuard : Bool) :
    Reading :=
  match t.reference? with
  | none => r
  | some name =>
    let passed := (env.loopsPassed name decl.context).map Notice.loopPassed
    let notices := passed.reverse ++ r.notices
    match env.resolve? name decl.context with
    | none =>
      { r with
        dangling := r.dangling ++ [name]
        notices := .dangling decl.name name :: notices }
    | some target =>
      if belowGuard || r.found.contains target then { r with notices := notices }
      else { r with found := r.found ++ [target], notices := notices }

/-- Reads expressions, each with whether it stands below a guard; the sub-expressions of the first
come before the others. -/
def readAll (env : Environment) (decl : AliasDecl) (guarded : Bool) :
    List (TypeExpr × Bool) → Reading → Reading
  | [], r => r
  | (t, belowGuard) :: rest, r =>
    let below := belowGuard || (guarded && t.guards)
    readAll env decl guarded (t.children.map (·, below) ++ rest) (r.look env decl t belowGuard)
termination_by todo => (todo.flatMap fun e => e.1.preorder).length
decreasing_by
  rw [List.flatMap_append, List.flatMap_map, List.flatMap_cons, TypeExpr.preorder_eq t,
    List.length_append, List.length_append, List.length_cons]
  exact Nat.add_lt_add_right (Nat.lt_succ_self _) _

/-- Reads a declaration. -/
def ofDecl (env : Environment) (guarded : Bool) (decl : AliasDecl) : Reading :=
  let r := readAll env decl guarded [(decl.type, false)] {}
  { r with notices := .walked decl.name r.found :: r.notices }

/-- Looking at an expression finds nothing but declared aliases. -/
theorem mem_found_look {env : Environment} {decl : AliasDecl} {r : Reading} {t : TypeExpr}
    {belowGuard : Bool} {a : TypeName} (h : a ∈ (r.look env decl t belowGuard).found) :
    a ∈ r.found ∨ a ∈ env.aliasNames := by
  unfold look at h
  split at h
  · exact Or.inl h
  · dsimp only at h
    split at h
    · exact Or.inl h
    · next target hr =>
      split at h
      · exact Or.inl h
      · rcases List.mem_append.mp h with h | h
        · exact Or.inl h
        · rw [List.mem_singleton.mp h]
          exact Or.inr (Environment.mem_aliasNames_of_resolve? hr)

theorem mem_found_readAll {env : Environment} {decl : AliasDecl} {guarded : Bool}
    {todo : List (TypeExpr × Bool)} {r : Reading} {a : TypeName}
    (h : a ∈ (readAll env decl guarded todo r).found) : a ∈ r.found ∨ a ∈ env.aliasNames := by
  induction todo, r using readAll.induct env decl guarded with
  | case1 r =>
    rw [readAll] at h
    exact Or.inl h
  | case2 r t belowGuard rest below ih =>
    rw [readAll] at h
    rcases ih h with h | h
    · exact mem_found_look h
    · exact Or.inr h

/-- The dependencies read in a declaration are declared aliases. -/
theorem mem_found_ofDecl {env : Environment} {guarded : Bool} {decl : AliasDecl} {a : TypeName}
    (h : a ∈ (ofDecl env guarded decl).found) : a ∈ env.aliasNames := by
  rcases mem_found_readAll h with h | h
  · exact absurd h List.not_mem_nil
  · exact h

end Reading

end TypeAlias
