import TypeAlias.Text.Percent

/-!
# Paths

The target of a request names a path on the server. A scheme and an authority in front of the path
do not count, nor do a query and a fragment behind it; the path starts at the root, wherever it is
said to start. Steps with dots are taken before escapes are replaced, so an escaped dot or slash is
part of a name until then.
-/

namespace TypeAlias.Service

/-- A path in characters. -/
abbrev Path := List Char

namespace Path

/-- A target without its scheme. -/
def withoutScheme (target : List Char) : List Char :=
  let (scheme, rest) := target.span fun c => c.isAlphanum || c ∈ ['+', '-', '.']
  match scheme, rest with
  | c :: _, ':' :: cs => if c.isAlpha then cs else target
  | _, _ => target

/-- A target, of which the scheme is left out, without its authority. -/
def withoutAuthority (target : List Char) : List Char :=
  match target with
  | '/' :: '/' :: cs => cs.dropWhile (· ≠ '/')
  | cs => cs

/-- Takes the steps with dots: one dot stays where it is, and two go back, but not beyond the
root. -/
def resolveDots (steps : List (List Char)) : List (List Char) :=
  steps.foldl
    (fun path step =>
      if step = ['.'] then path
      else if step = ['.', '.'] then (if path = [[]] then path else path.dropLast)
      else path ++ [step])
    []

/-- The path that a target names. Escapes are replaced twice, by who sends the request and by who
receives it. -/
def ofTarget (target : List Char) : Path :=
  let named := withoutAuthority (withoutScheme (target.takeWhile fun c => c ≠ '?' ∧ c ≠ '#'))
  let steps := ('/' :: named.dropWhile (· = '/')).splitOn '/'
  Text.unescaped (Text.unescaped (['/'].intercalate (resolveDots steps)))

/-- A path without slashes at its end. -/
def withoutSlashes (path : Path) : Path :=
  (path.reverse.dropWhile (· = '/')).reverse

end Path

end TypeAlias.Service
