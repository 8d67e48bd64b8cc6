import TypeAlias.Table

/-!
# Module aliases

A module alias gives a second path to a module. A namespace is rewritten by replacing its longest
registered beginning by the path it stands for, again and again, until none of its beginnings is
registered. A path that comes up a second time on the way is taken for a loop.
-/

namespace TypeAlias

/-- The path of a module or a namespace, outermost segment first. -/
abbrev Path := List String

/-- The registered module aliases: each new path with the path it stands for. -/
abbrev ModuleAliases := Table Path Path

/-- A registered beginning of a namespace. -/
structure PathMatch where
  /-- The beginning. -/
  source : Path
  /-- What it stands for. -/
  target : Path
  /-- The rest of the namespace. -/
  rest : Path
  deriving DecidableEq

namespace ModuleAliases

/-- The registered beginning of `n` segments. -/
def matchOf? (m : ModuleAliases) (namesp : Path) (n : Nat) : Option PathMatch :=
  (m.get? (namesp.take n)).map fun target => ⟨namesp.take n, target, namesp.drop n⟩

/-- The longest registered beginning of at most `n` segments that is not empty. -/
def longestUpTo? (m : ModuleAliases) (namesp : Path) : Nat → Option PathMatch
  | 0 => none
  | n + 1 => (m.matchOf? namesp (n + 1)).or (m.longestUpTo? namesp n)

/-- The longest registered beginning that is not empty. -/
def longest? (m : ModuleAliases) (namesp : Path) : Option PathMatch :=
  m.longestUpTo? namesp namesp.length

/-- Rewrites a namespace, given the beginnings replaced so far. There is no result when one of them
comes up again, nor after `fuel` steps. -/
def rewriteFrom? (m : ModuleAliases) : Nat → List Path → Path → Option Path
  | 0, _, _ => none
  | fuel + 1, seen, namesp =>
    match m.longest? namesp with
    | none => some namesp
    | some p =>
      if p.source ∈ seen then none
      else m.rewriteFrom? fuel (p.source :: seen) (p.target ++ p.rest)

/-- The namespace that a written one stands for, or none in case of a loop. Each step replaces
another registered path, so there are no more steps than registered paths. -/
def rewrite? (m : ModuleAliases) (namesp : Path) : Option Path :=
  m.rewriteFrom? (m.size + 1) [] namesp

end ModuleAliases

end TypeAlias
