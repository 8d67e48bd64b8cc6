import TypeAlias.Files.Location

/-!
# File trees

The files and directories around a current directory. A path leads from directory to directory; it
may also lead out of the current directory, but not into it again by its name.
-/

namespace TypeAlias.Files

/-- What stands at a path. -/
inductive FileState where
  | absent
  | directory
  | file (content : ByteArray)
  /-- A file that must not be read. -/
  | locked
  /-- The path or one of its names is too long. -/
  | tooLong
  /-- Nothing can have such a name. -/
  | unnameable

/-- A place as it is seen from the current directory: some directories above it, and then down by
names. -/
structure Place where
  above : Nat := 0
  names : List String := []
  deriving DecidableEq

namespace Place

/-- The directory that holds a place. -/
def up (p : Place) : Place :=
  if p.names.isEmpty then { p with above := p.above + 1 }
  else { p with names := p.names.dropLast }

/-- The place with a name in a directory. -/
def down (p : Place) (name : String) : Place :=
  { p with names := p.names ++ [name] }

/-- The place that a step leads to; two dots lead up. -/
def step (p : Place) (name : String) : Place :=
  if name = ".." then p.up else p.down name

end Place

/-- Files and directories by their places. -/
structure Tree where
  files : List (Place × ByteArray) := []
  directories : List Place := []

namespace Tree

/-- The greatest number of bytes in a name. -/
def mostNameBytes : Nat :=
  255

/-- The greatest number of bytes in a path. -/
def mostPathBytes : Nat :=
  4095

/-- What stands in a place. -/
def stateAt (t : Tree) (p : Place) : FileState :=
  match t.files.lookup p with
  | some content => .file content
  | none => if p.names.isEmpty || t.directories.contains p then .directory else .absent

/-- Where the steps of a path lead from a directory. Of the root nothing is known but that it is a
directory; there the place is none. -/
def walk (t : Tree) : Option Place → List String → FileState
  | _, [] => .directory
  | none, step :: rest => if step ∈ ["", ".", ".."] then t.walk none rest else .absent
  | some place, step :: rest =>
    if step ∈ ["", "."] then t.walk (some place) rest
    else if mostNameBytes < step.utf8ByteSize then .tooLong
    else
      match t.stateAt (place.step step) with
      | .directory => t.walk (some (place.step step)) rest
      | .file content => if rest.isEmpty then .file content else .absent
      | other => other

/-- What stands at a written path. -/
def lookup (t : Tree) (path : String) : FileState :=
  if path.toList.contains '\x00' then .unnameable
  else if mostPathBytes < path.utf8ByteSize then .tooLong
  else
    match path.toList with
    | [] => .absent
    | '/' :: cs => t.walk none ((cs.splitOn '/').map String.ofList)
    | cs => t.walk (some {}) ((cs.splitOn '/').map String.ofList)

/-- The places that steps lead through from a directory. -/
def route (place : Place) : List String → List Place
  | [] => []
  | step :: rest => place.step step :: route (place.step step) rest

/-- The tree with a file added under a written path, and with the directories on the way to it; a
later file takes the place of an earlier one. -/
def add (t : Tree) (path : String) (content : ByteArray) : Tree :=
  let passed := route {} (Location.ofText path).segments
  { files := (passed.getLastD {}, content) :: t.files,
    directories := passed.dropLast ++ t.directories }

/-- The tree of some files. -/
def ofFiles (files : List (String × ByteArray)) : Tree :=
  files.foldl (fun t f => t.add f.1 f.2) {}

end Tree

end TypeAlias.Files
