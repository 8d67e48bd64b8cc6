import TypeAlias.Text.Blank
import TypeAlias.Text.Lowercase
import TypeAlias.Text.Quoted

/-!
# Type names

A type name is a last segment inside a namespace, written with `::` between the segments. A name
that starts with `::` is absolute; any other is relative to the place where it is written. The first
character of the last segment tells what kind of type the name can stand for.
-/

namespace TypeAlias

/-- A written or canonical type name. -/
structure TypeName where
  /-- The last segment. -/
  name : String
  /-- The segments of the namespace, outermost first. -/
  scope : List String := []
  /-- Whether the name starts at the top level. -/
  absolute : Bool := false
  deriving DecidableEq, Inhabited

/-- What a type name can stand for. -/
inductive NameKind where
  | aliasName
  | interfaceName
  | className
  deriving DecidableEq

namespace TypeName

/-- Cuts a text at each `::`, from left to right. -/
def splitSegments : List Char → List (List Char)
  | [] => [[]]
  | ':' :: ':' :: rest => [] :: splitSegments rest
  | c :: rest =>
    match splitSegments rest with
    | [] => [[c]]
    | s :: ss => (c :: s) :: ss

/-- The segments of a text that are not empty. -/
def segments (cs : List Char) : List (List Char) :=
  (splitSegments cs).filter (· ≠ [])

/-- Reads a name: surrounding blanks and empty segments do not count. -/
def ofChars? (cs : List Char) : Option TypeName :=
  let cs := Text.trim cs
  match (segments cs).reverse with
  | [] => none
  | last :: before =>
    some {
      name := String.ofList last
      scope := before.reverse.map String.ofList
      absolute := [':', ':'].isPrefixOf cs }

/-- Reads a name; a text without a segment is none. -/
def parse? (text : String) : Option TypeName :=
  ofChars? text.toList

/-- What is said of a text that is no name. -/
def malformedMessage (text : String) : String :=
  "Invalid type name: " ++ Text.quoted (String.ofList (Text.trim text.toList))

/-- The kind of a name. -/
def kind (n : TypeName) : NameKind :=
  match n.name.toList with
  | [] => .className
  | '_' :: _ => .interfaceName
  | c :: _ => if Text.isLowercase c then .aliasName else .className

/-- The same name at the top level. -/
def toAbsolute (n : TypeName) : TypeName :=
  { n with absolute := true }

/-- The name with the same last segment in a given namespace of the top level. -/
def inScope (n : TypeName) (scope : List String) : TypeName :=
  { name := n.name, scope := scope, absolute := true }

/-- All segments of a name. -/
def path (n : TypeName) : List String :=
  n.scope ++ [n.name]

/-- The written form of a name. -/
def toString (n : TypeName) : String :=
  (if n.absolute then "::" else "") ++ "::".intercalate n.path

instance : ToString TypeName := ⟨toString⟩

end TypeName

/-- Written names, one after the other. -/
def commaSeparated (names : List TypeName) : String :=
  ", ".intercalate (names.map TypeName.toString)

end TypeAlias
