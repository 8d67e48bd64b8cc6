/-!
# Locations of files

A location is written as segments with slashes between them. Empty segments and segments `.` do not
count, except for slashes at the start: one or two of them start at a root, and more count as one.
-/

namespace TypeAlias.Files

/-- Where a file is to be found. -/
structure Location where
  /-- The slashes at the start. -/
  root : String := ""
  segments : List String := []
  deriving DecidableEq

namespace Location

/-- The root of a location with the given number of slashes at the start. -/
def rootOf : Nat → String
  | 0 => ""
  | 2 => "//"
  | _ => "/"

/-- Reads a location. -/
def ofText (text : String) : Location where
  root := rootOf (text.toList.takeWhile (· = '/')).length
  segments :=
    ((text.toList.splitOn '/').map String.ofList).filter fun s => s ≠ "" ∧ s ≠ "."

/-- The written form of a location. -/
def text (l : Location) : String :=
  match l.root, l.segments with
  | "", [] => "."
  | root, segments => root ++ "/".intercalate segments

/-- What follows the last dot of a file name, unless the name ends or begins with it. -/
def extension? (name : List Char) : Option (List Char) :=
  let after := (name.reverse.takeWhile (· ≠ '.')).reverse
  if after.isEmpty || name.length ≤ after.length + 1 then none else some after

/-- The extension of the last segment, in lower case. -/
def lowerExtension? (l : Location) : Option String :=
  (l.segments.getLast?.bind fun s => extension? s.toList).map fun cs =>
    String.ofList (cs.map Char.toLower)

end Location

end TypeAlias.Files
