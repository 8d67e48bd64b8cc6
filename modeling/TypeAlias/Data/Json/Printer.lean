import TypeAlias.Data.Value

/-!
# Printing JSON

The text is pure ASCII: any other character is escaped by its UTF-16 code units, and so is a lone
surrogate. With an indent, every item stands on a line of its own.
-/

namespace TypeAlias.Data.Json

/-- The escape of a code unit. -/
def unitEscape (n : Nat) : List Char :=
  '\\' :: 'u' :: Text.hexDigits 4 n

/-- How a character is written in a string. -/
def escape (c : Char) : List Char :=
  match c with
  | '"' => ['\\', '"']
  | '\\' => ['\\', '\\']
  | '\n' => ['\\', 'n']
  | '\r' => ['\\', 'r']
  | '\t' => ['\\', 't']
  | '\x08' => ['\\', 'b']
  | '\x0c' => ['\\', 'f']
  | _ =>
    let n := Text.codePoint c
    if 0x20 ≤ n ∧ n < 0x7f then [c]
    else if n < 0x10000 then unitEscape n
    else
      unitEscape (0xd800 + (n - 0x10000) / 0x400) ++ unitEscape (0xdc00 + (n - 0x10000) % 0x400)

/-- The string with a text. -/
def printString (s : String) : String :=
  "\"" ++ String.ofList (s.toList.flatMap escape) ++ "\""

/-- The text of a scalar. -/
def printScalar : Scalar → String
  | .null => "null"
  | .bool b => if b then "true" else "false"
  | .int i => toString i
  | .float .nan => "NaN"
  | .float (.infinite negative) => if negative then "-Infinity" else "Infinity"
  | .float x => x.text
  | .str s => printString s
  | s => printString s.text

/-- The text of a key, which is always a string. -/
def printKey : Scalar → String
  | .str s => printString s
  | s => printString (printScalar s)

/-- How items are laid out: the spaces of one level, or everything on one line. -/
abbrev Layout := Option Nat

/-- What stands before an item at a level. -/
def lineStart (layout : Layout) (level : Nat) : String :=
  match layout with
  | none => ""
  | some n => "\n" ++ String.ofList (List.replicate (n * level) ' ')

/-- What stands between two items at a level. -/
def separator (layout : Layout) (level : Nat) : String :=
  match layout with
  | none => ", "
  | some _ => "," ++ lineStart layout level

mutual

/-- The text of a value whose items stand one level below `level`. -/
def printAt (layout : Layout) (level : Nat) : Value → String
  | .scalar s => printScalar s
  | .list [] => "[]"
  | .list items =>
    "[" ++ lineStart layout (level + 1) ++ printItems layout (level + 1) items ++
      lineStart layout level ++ "]"
  | .map [] => "\x7b\x7d"
  | .map entries =>
    "\x7b" ++ lineStart layout (level + 1) ++ printEntries layout (level + 1) entries ++
      lineStart layout level ++ "\x7d"

/-- The text of list items. -/
def printItems (layout : Layout) (level : Nat) : List Value → String
  | [] => ""
  | [v] => printAt layout level v
  | v :: rest =>
    printAt layout level v ++ separator layout level ++ printItems layout level rest

/-- The text of the entries of a mapping. -/
def printEntries (layout : Layout) (level : Nat) : List (Scalar × Value) → String
  | [] => ""
  | [(k, v)] => printKey k ++ ": " ++ printAt layout level v
  | (k, v) :: rest =>
    printKey k ++ ": " ++ printAt layout level v ++ separator layout level ++
      printEntries layout level rest

end

/-- The text of a value. -/
def print (layout : Layout) (v : Value) : String :=
  printAt layout 0 v

end TypeAlias.Data.Json
