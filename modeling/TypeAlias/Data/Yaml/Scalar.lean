import TypeAlias.Data.Json.Reader
import TypeAlias.Data.Yaml.Cursor
import TypeAlias.Data.Yaml.Fault

/-!
# Texts of scalars

A scalar is written plain, between quotes, or as a block of lines. Line ends inside a plain or
quoted scalar are folded: a single one becomes a space, and of several the first is dropped.
-/

namespace TypeAlias.Data.Yaml

/-- The text of a line end and of the empty lines after it, when lines are folded. -/
def foldBreaks (first : List Char) (others : List (List Char)) : List Char :=
  (if first ≠ ['\n'] then first else if others.isEmpty then [' '] else []) ++ others.flatten

/-! ## Plain scalars -/

/-- The length of the part of a plain scalar that holds no blank. -/
def plainLength (inFlow : Bool) : List Char → Nat
  | [] => 0
  | c :: rest =>
    let after := rest.headD endOfText
    let ends :=
      isBlankOrEnd c ||
        (c = ':' && (isBlankOrEnd after || (inFlow && ",[]\x7b\x7d".toList.contains after))) ||
        (inFlow && ",?[]\x7b\x7d".toList.contains c)
    if ends then 0 else 1 + plainLength inFlow rest

/-- What stands between two parts of a plain scalar. -/
structure Gap where
  /-- The text it stands for; none if the scalar cannot go on. -/
  text : List Char
  cursor : Cursor
  /-- Whether a line ended. -/
  brokeLine : Bool

/-- Takes spaces and empty lines; none when a line starts that separates documents. -/
def emptyLines : Nat → List (List Char) → Cursor → Option (List (List Char)) × Cursor
  | 0, done, c => (some done.reverse, c)
  | fuel + 1, done, c =>
    let c := c.skipSpaces
    if isBreak c.peek then
      let (b, c) := c.takeBreak
      if c.atSeparator then (none, c) else emptyLines fuel (b :: done) c
    else (some done.reverse, c)

/-- Takes what stands after a part of a plain scalar. -/
def plainGap (c : Cursor) : Gap :=
  let (spaces, c) := c.takeWhile (· = ' ')
  if isBreak c.peek then
    let (first, c) := c.takeBreak
    if c.atSeparator then ⟨[], c, true⟩
    else
      match emptyLines (c.rest.length + 1) [] c with
      | (none, c) => ⟨[], c, true⟩
      | (some others, c) => ⟨foldBreaks first others, c, true⟩
  else ⟨spaces, c, false⟩

/-- Takes the parts of a plain scalar, whose lines must be indented by `margin` columns unless it is
part of a flow collection. Tells whether a line ended after the last part. -/
def plainParts (inFlow : Bool) (margin : Int) :
    Nat → List Char → Bool → List Char → Cursor → List Char × Cursor × Bool
  | 0, _, broke, done, c => (done, c, broke)
  | fuel + 1, gap, broke, done, c =>
    if c.peek = '#' then (done, c, broke)
    else
      let n := plainLength inFlow c.rest
      if n = 0 then (done, c, broke)
      else
        let (part, c) := c.take n
        let done := done ++ gap ++ part
        let g := plainGap c
        if g.text.isEmpty || g.cursor.peek = '#' ||
            (!inFlow && (g.cursor.column : Int) < margin) then
          (done, g.cursor, g.brokeLine)
        else plainParts inFlow margin fuel g.text g.brokeLine done g.cursor

/-- Takes a plain scalar. -/
def takePlain (inFlow : Bool) (margin : Int) (c : Cursor) : List Char × Cursor × Bool :=
  plainParts inFlow margin (c.rest.length + 1) [] false [] c

/-! ## Quoted scalars -/

/-- The character that a backslash and a character stand for. -/
def escaped? (c : Char) : Option Char :=
  let table : List (Char × Char) :=
    [('0', '\x00'), ('a', '\x07'), ('b', '\x08'), ('t', '\t'), ('\t', '\t'), ('n', '\n'),
      ('v', '\x0b'), ('f', '\x0c'), ('r', '\r'), ('e', '\x1b'), (' ', ' '), ('"', '"'),
      ('\\', '\\'), ('/', '/'), ('N', '\x85'), ('_', '\xa0'), ('L', '\u2028'), ('P', '\u2029')]
  table.lookup c

/-- The number of hexadecimal digits after a backslash and a letter. -/
def escapeDigits? : Char → Option Nat
  | 'x' => some 2
  | 'u' => some 4
  | 'U' => some 8
  | _ => none

/-- Takes blanks and empty lines; a line that separates documents cannot stand there. -/
def quotedBreaks : Nat → List (List Char) → Cursor → Option (List (List Char) × Cursor)
  | 0, _, _ => none
  | fuel + 1, done, c =>
    if c.atSeparator then none
    else
      let c := c.skipWhile isSpaceOrTab
      if isBreak c.peek then
        let (b, c) := c.takeBreak
        quotedBreaks fuel (b :: done) c
      else some (done.reverse, c)

/-- Takes the character that an escape after a backslash stands for. -/
def takeEscape (c : Cursor) : Except Fault (List Char × Cursor) :=
  match escaped? c.peek with
  | some a => .ok ([a], c.next)
  | none =>
    match escapeDigits? c.peek with
    | some n => do
      let (digits, after) := c.next.take n
      let code ← orMalformed (Text.hexValue? digits)
      if digits.length < n then throw .malformed
      else if 0x110000 ≤ code then throw (.notCharacter code)
      else return ([Text.ofCodePoint code], after)
    | none =>
      if isBreak c.peek then do
        let c := c.takeBreak.2
        let (breaks, c) ← orMalformed (quotedBreaks (c.rest.length + 1) [] c)
        return (breaks.flatten, c)
      else throw .malformed

/-- Takes what stands between the quotes of a scalar, and the closing quote. -/
def quotedParts (double : Bool) : Nat → List Char → Cursor → Except Fault (List Char × Cursor)
  | 0, _, _ => .error .malformed
  | fuel + 1, done, c =>
    let a := c.peek
    if !double && a = '\'' then
      if c.peekAt 1 = '\'' then quotedParts double fuel (done ++ ['\'']) (c.skip 2)
      else .ok (done, c.next)
    else if double && a = '"' then .ok (done, c.next)
    else if double && a = '\\' then do
      let (text, c) ← takeEscape c.next
      quotedParts double fuel (done ++ text) c
    else if isBlankOrEnd a then do
      let (blanks, c) := c.takeWhile isSpaceOrTab
      if c.peek = endOfText then throw .malformed
      else if isBreak c.peek then do
        let (first, c) := c.takeBreak
        let (others, c) ← orMalformed (quotedBreaks (c.rest.length + 1) [] c)
        quotedParts double fuel (done ++ foldBreaks first others) c
      else quotedParts double fuel (done ++ blanks) c
    else
      let (text, c) := c.takeWhile fun b => !isBlankOrEnd b && b ≠ '\'' && b ≠ '"' && b ≠ '\\'
      if text.isEmpty then quotedParts double fuel (done ++ [a]) c.next
      else quotedParts double fuel (done ++ text) c

/-- Takes a quoted scalar. -/
def takeQuoted (double : Bool) (c : Cursor) : Except Fault (List Char × Cursor) :=
  quotedParts double (c.rest.length + 1) [] c.next

/-! ## Block scalars -/

/-- What becomes of the line ends at the end of a block. -/
inductive Chomping where
  /-- They are dropped. -/
  | strip
  /-- The first one is kept. -/
  | clip
  /-- All are kept. -/
  | keep
  deriving DecidableEq

/-- The chomping that a character asks for. -/
def chomping? : Char → Option Chomping
  | '+' => some .keep
  | '-' => some .strip
  | _ => none

/-- The indentation that a character asks for. -/
def indentDigit? (c : Char) : Option Nat :=
  if c.isDigit then some (c.toNat - '0'.toNat) else none

/-- Takes the header of a block: the chomping and the indentation asked for, in either order. -/
def blockHeader (c : Cursor) : Option (Chomping × Option Nat × Cursor) := do
  let (chomp, indent, c) :=
    match chomping? c.peek with
    | some chomp =>
      match indentDigit? c.next.peek with
      | some n => (chomp, some n, c.skip 2)
      | none => (chomp, none, c.next)
    | none =>
      match indentDigit? c.peek with
      | some n =>
        match chomping? c.next.peek with
        | some chomp => (chomp, some n, c.skip 2)
        | none => (.clip, some n, c.next)
      | none => (.clip, none, c)
  if indent = some 0 ∨ !(c.peek = ' ' ∨ isBreakOrEnd c.peek) then none
  else return (chomp, indent, ← c.endLine?)

/-- Takes the empty lines before a block and finds its indentation: the longest run of spaces. -/
def blockIndentation : Nat → List (List Char) → Nat → Cursor → List (List Char) × Nat × Cursor
  | 0, done, widest, c => (done.reverse, widest, c)
  | fuel + 1, done, widest, c =>
    if c.peek = ' ' then
      let c := c.skipSpaces
      blockIndentation fuel done (max widest c.column) c
    else if isBreak c.peek then
      let (b, c) := c.takeBreak
      blockIndentation fuel (b :: done) widest c
    else (done.reverse, widest, c)

/-- Takes the empty lines inside a block. -/
def blockBreaks (indent : Nat) : Nat → List (List Char) → Cursor → List (List Char) × Cursor
  | 0, done, c => (done.reverse, c)
  | fuel + 1, done, c =>
    let c := c.skipSpacesTo indent
    if isBreak c.peek then
      let (b, c) := c.takeBreak
      blockBreaks indent fuel (b :: done) c
    else (done.reverse, c)

/-- The text of a block, with the last line end and the empty lines after it apart. -/
structure BlockText where
  text : List Char
  lastBreak : List Char
  trailing : List (List Char)
  cursor : Cursor

/-- Takes the lines of a block. `between` is what stands before the next line. -/
def blockLines (folded : Bool) (indent : Nat) :
    Nat → List Char → List Char → List (List Char) → Cursor → BlockText
  | 0, done, last, breaks, c => ⟨done, last, breaks, c⟩
  | fuel + 1, done, last, breaks, c =>
    if c.column ≠ indent ∨ c.peek = endOfText then ⟨done, last, breaks, c⟩
    else
      let flush := !isSpaceOrTab c.peek
      let (text, c) := c.takeWhile (!isBreakOrEnd ·)
      let done := done ++ breaks.flatten ++ text
      let (last, c) := c.takeBreak
      let (breaks, c) := blockBreaks indent (c.rest.length + 1) [] c
      if c.column = indent ∧ c.peek ≠ endOfText then
        let joint :=
          if folded && last = ['\n'] && flush && !isSpaceOrTab c.peek then
            if breaks.isEmpty then [' '] else []
          else last
        blockLines folded indent fuel (done ++ joint) last breaks c
      else ⟨done, last, breaks, c⟩

/-- Takes a block scalar inside a collection with the given indentation, which is -1 outside. -/
def takeBlock (folded : Bool) (indentation : Int) (c : Cursor) : Option (List Char × Cursor) := do
  let (chomp, asked, c) ← blockHeader c.next
  let least := (max 1 (indentation + 1)).toNat
  let fuel := c.rest.length + 1
  let (breaks, indent, c) :=
    match asked with
    | some n =>
      let indent := least + n - 1
      let (breaks, c) := blockBreaks indent fuel [] c
      (breaks, indent, c)
    | none =>
      let (breaks, widest, c) := blockIndentation fuel [] 0 c
      (breaks, max least widest, c)
  let b := blockLines folded indent fuel [] [] breaks c
  let tail :=
    match chomp with
    | .strip => []
    | .clip => b.lastBreak
    | .keep => b.lastBreak ++ b.trailing.flatten
  return (b.text ++ tail, b.cursor)

end TypeAlias.Data.Yaml
