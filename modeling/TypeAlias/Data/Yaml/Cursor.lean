/-!
# Positions in a text

A cursor stands in front of the rest of a text and knows how far it has come, and its line and
column. A byte order mark takes no column.
-/

namespace TypeAlias.Data.Yaml

/-- Whether a character ends a line. -/
def isBreak (c : Char) : Bool :=
  c = '\n' || c = '\r' || c = '\x85' || c = '\u2028' || c = '\u2029'

/-- The character that stands for the end of the text, in which it cannot occur. -/
def endOfText : Char :=
  '\x00'

/-- Whether a character ends a line or the text. -/
def isBreakOrEnd (c : Char) : Bool :=
  isBreak c || c = endOfText

/-- Whether a character is a space or a tabulator. -/
def isSpaceOrTab (c : Char) : Bool :=
  c = ' ' || c = '\t'

/-- Whether a token ends before a character: a blank, a line end or the end of the text. -/
def isBlankOrEnd (c : Char) : Bool :=
  isSpaceOrTab c || isBreakOrEnd c

/-- Whether a character may stand in a name of an anchor, a directive or a tag handle. -/
def isWordChar (c : Char) : Bool :=
  c.isAlphanum || c = '-' || c = '_'

/-- A position in a text. -/
structure Cursor where
  rest : List Char
  index : Nat := 0
  line : Nat := 0
  column : Nat := 0

namespace Cursor

/-- The next character. -/
def peek (c : Cursor) : Char :=
  c.rest.headD endOfText

/-- The character after the next `n` ones. -/
def peekAt (c : Cursor) (n : Nat) : Char :=
  (c.rest.drop n).headD endOfText

/-- Whether the text goes on with some characters. -/
def startsWith (c : Cursor) (cs : List Char) : Bool :=
  cs.isPrefixOf c.rest

/-- Steps over the next character. -/
def next (c : Cursor) : Cursor :=
  match c.rest with
  | [] => c
  | a :: rest =>
    let endsLine := isBreak a && !(a = '\r' && rest.head? = some '\n')
    { rest
      index := c.index + 1
      line := if endsLine then c.line + 1 else c.line
      column := if endsLine then 0 else if a = '\ufeff' then c.column else c.column + 1 }

/-- Steps over the next `n` characters. -/
def skip : Nat → Cursor → Cursor
  | 0, c => c
  | n + 1, c => c.next.skip n

/-- Takes the next `n` characters. -/
def take (c : Cursor) (n : Nat) : List Char × Cursor :=
  (c.rest.take n, c.skip n)

/-- Takes characters as long as they have a property. -/
def takeWhile (c : Cursor) (p : Char → Bool) : List Char × Cursor :=
  c.take (c.rest.takeWhile p).length

/-- Steps over characters as long as they have a property. -/
def skipWhile (c : Cursor) (p : Char → Bool) : Cursor :=
  (c.takeWhile p).2

/-- Steps over spaces. -/
def skipSpaces (c : Cursor) : Cursor :=
  c.skipWhile (· = ' ')

/-- Steps over spaces that stand before a column. -/
def skipSpacesTo (c : Cursor) (column : Nat) : Cursor :=
  c.skip ((c.rest.take (column - c.column)).takeWhile (· = ' ')).length

/-- Takes a line end, if there is one; most kinds of line end count as a line feed. -/
def takeBreak (c : Cursor) : List Char × Cursor :=
  if c.startsWith ['\r', '\n'] then (['\n'], c.skip 2)
  else if c.peek = '\u2028' || c.peek = '\u2029' then ([c.peek], c.next)
  else if isBreak c.peek then (['\n'], c.next)
  else ([], c)

/-- Steps over a comment. -/
def skipComment (c : Cursor) : Cursor :=
  if c.peek = '#' then c.skipWhile (!isBreakOrEnd ·) else c

/-- Steps over the rest of a line on which only a comment may follow. -/
def endLine? (c : Cursor) : Option Cursor :=
  let c := c.skipSpaces.skipComment
  if isBreakOrEnd c.peek then some c.takeBreak.2 else none

/-- Whether a line starts that separates documents. -/
def atSeparator (c : Cursor) : Bool :=
  (c.startsWith ['-', '-', '-'] || c.startsWith ['.', '.', '.']) && isBlankOrEnd (c.peekAt 3)

end Cursor

end TypeAlias.Data.Yaml
