import TypeAlias.Data.Yaml.Scalar

/-!
# Tokens

A text is cut into tokens from left to right. Indentation opens and closes block collections. What
stands before a `:` is found to be a key only when the colon is reached, so the places where a key
may have begun are remembered, one for each level of flow collections.
-/

namespace TypeAlias.Data.Yaml

/-- A tag: a handle, if it has one, and a suffix. -/
structure Tag where
  handle : Option String
  suffix : String
  deriving DecidableEq

/-- A piece of a text. -/
inductive Token where
  /-- The version a document is written in. -/
  | version (major : Nat)
  /-- What a tag handle stands for. -/
  | handle (name meaning : String)
  /-- Another directive. -/
  | directive
  | documentStart
  | documentEnd
  | blockSequenceStart
  | blockMappingStart
  | blockEnd
  | flowSequenceStart
  | flowSequenceEnd
  | flowMappingStart
  | flowMappingEnd
  | flowEntry
  | blockEntry
  | key
  | value
  | alias (name : String)
  | anchor (name : String)
  | tag (t : Tag)
  | scalar (text : String) (plain : Bool)
  deriving DecidableEq

/-! ## Words, tags and directives -/

/-- Takes a word that is not empty. -/
def takeWord (c : Cursor) : Option (String × Cursor) :=
  let (w, c) := c.takeWhile isWordChar
  if w.isEmpty then none else some (String.ofList w, c)

/-- Takes the name of an anchor after its sign. -/
def takeAnchor (c : Cursor) : Option (String × Cursor) := do
  let (name, c) ← takeWord c.next
  if isBlankOrEnd c.peek || "?:,]\x7d%@\x60".toList.contains c.peek then some (name, c) else none

/-- Whether a character may stand in the suffix of a tag. -/
def isUriChar (c : Char) : Bool :=
  c.isAlphanum || "-;/?:@&=+$,_.!~*'()[]%".toList.contains c

/-- The bytes of the suffix of a tag, in which a percent sign escapes one. -/
def uriBytes? : List Char → Option (List UInt8)
  | [] => some []
  | '%' :: a :: b :: rest => do
    let n ← Text.hexValue? [a, b]
    return n.toUInt8 :: (← uriBytes? rest)
  | c :: rest => if c = '%' then none else return c.toNat.toUInt8 :: (← uriBytes? rest)

/-- Takes the suffix of a tag. -/
def takeUri (c : Cursor) : Option (String × Cursor) := do
  let (cs, c) := c.takeWhile isUriChar
  if cs.isEmpty then none
  else
    let text ← String.fromUTF8? ⟨(← uriBytes? cs).toArray⟩
    return (text, c)

/-- Takes the handle of a tag. -/
def takeHandle (c : Cursor) : Option (String × Cursor) :=
  if c.peek ≠ '!' then none
  else if c.peekAt 1 = ' ' then some ("!", c.next)
  else
    let (w, after) := c.next.takeWhile isWordChar
    if after.peek = '!' then some (String.ofList (['!'] ++ w ++ ['!']), after.next) else none

/-- Takes a tag. -/
def takeTag (c : Cursor) : Option (Tag × Cursor) := do
  let (tag, c) ←
    if c.peekAt 1 = '<' then do
      let (suffix, c) ← takeUri (c.skip 2)
      if c.peek = '>' then some (Tag.mk none suffix, c.next) else none
    else if isBlankOrEnd (c.peekAt 1) then some (Tag.mk none "!", c.next)
    else do
      let word := c.next.rest.takeWhile fun a => !(a = ' ' || isBreakOrEnd a)
      let (handle, c) ← if word.contains '!' then takeHandle c else some ("!", c.next)
      let (suffix, c) ← takeUri c
      some (Tag.mk (some handle) suffix, c)
  if c.peek = ' ' || isBreakOrEnd c.peek then some (tag, c) else none

/-- Takes a number of a version. -/
def takeNumber (c : Cursor) : Option (Nat × Cursor) :=
  let (ds, c) := c.takeWhile Char.isDigit
  if ds.isEmpty then none else some (Json.decimalValue ds, c)

/-- Takes a directive, which fills its line. -/
def takeDirective (c : Cursor) : Option (Token × Cursor) := do
  let (name, c) ← takeWord c.next
  if !(c.peek = ' ' || isBreakOrEnd c.peek) then none
  else
    let (token, c) ←
      match name with
      | "YAML" => do
        let (major, c) ← takeNumber c.skipSpaces
        if c.peek ≠ '.' then none
        else
          let (_, c) ← takeNumber c.next
          if c.peek = ' ' || isBreakOrEnd c.peek then some (Token.version major, c) else none
      | "TAG" => do
        let (handle, c) ← takeHandle c.skipSpaces
        if c.peek ≠ ' ' then none
        else
          let (meaning, c) ← takeUri c.skipSpaces
          if c.peek = ' ' || isBreakOrEnd c.peek then
            some (Token.handle handle meaning, c)
          else none
      | _ => some (Token.directive, c.skipWhile (!isBreakOrEnd ·))
    return (token, ← c.endLine?)

/-! ## The lexer -/

/-- A place where a key may have begun. -/
structure KeyStart where
  /-- The number of tokens before it. -/
  position : Nat
  /-- Whether nothing but a key can stand there. -/
  required : Bool
  index : Nat
  line : Nat
  column : Nat

/-- What the lexer knows after some tokens. -/
structure Lexer where
  cursor : Cursor
  tokens : Array Token := #[]
  /-- The number of flow collections that are open. -/
  flowLevel : Nat := 0
  /-- The column of the innermost block collection, -1 outside of all. -/
  indent : Int := -1
  /-- The columns of the block collections around it, the innermost first. -/
  indents : List Int := []
  /-- Whether a key may begin here. -/
  keyAllowed : Bool := true
  /-- Where the last key of each flow level may have begun. -/
  keyStarts : List (Nat × KeyStart) := []

namespace Lexer

/-- Adds a token. -/
def push (l : Lexer) (t : Token) : Lexer :=
  { l with tokens := l.tokens.push t }

/-- Adds a token at an earlier place. -/
def pushAt (l : Lexer) (position : Nat) (t : Token) : Lexer :=
  { l with
    tokens := (l.tokens.extract 0 position).push t ++ l.tokens.extract position l.tokens.size }

/-- Steps over characters of the text. -/
def skip (l : Lexer) (n : Nat) : Lexer :=
  { l with cursor := l.cursor.skip n }

/-- Steps over blanks, comments and line ends. A key may begin on a new line of a block. -/
def skipToToken : Nat → Lexer → Lexer
  | 0, l => l
  | fuel + 1, l =>
    let c := l.cursor.skipSpaces.skipComment
    if isBreak c.peek then
      skipToToken fuel
        { l with cursor := c.takeBreak.2, keyAllowed := l.keyAllowed || l.flowLevel == 0 }
    else { l with cursor := c }

/-- Forgets the places where a key can no longer have begun, for a key fits on one line and takes at
most 1024 characters. -/
def dropStale (l : Lexer) : Except Fault Lexer :=
  let stale (k : KeyStart) : Bool := k.line ≠ l.cursor.line || 1024 < l.cursor.index - k.index
  if l.keyStarts.any fun e => stale e.2 && e.2.required then .error .malformed
  else .ok { l with keyStarts := l.keyStarts.filter fun e => !stale e.2 }

/-- Forgets where a key of the current flow level may have begun. -/
def dropKeyStart (l : Lexer) : Except Fault Lexer :=
  match l.keyStarts.lookup l.flowLevel with
  | none => .ok l
  | some k =>
    if k.required then .error .malformed
    else .ok { l with keyStarts := l.keyStarts.filter fun e => e.1 ≠ l.flowLevel }

/-- Remembers that a key may begin here. -/
def saveKeyStart (l : Lexer) : Except Fault Lexer :=
  if !l.keyAllowed then .ok l
  else do
    let required := l.flowLevel == 0 && l.indent == (l.cursor.column : Int)
    let l ← l.dropKeyStart
    let c := l.cursor
    let k : KeyStart := ⟨l.tokens.size, required, c.index, c.line, c.column⟩
    return { l with keyStarts := (l.flowLevel, k) :: l.keyStarts }

/-- Closes the block collections to the right of a column. -/
def closeBlocks (column : Int) : List Int → Lexer → Lexer
  | [], l => l
  | outer :: outers, l =>
    if column < l.indent then
      closeBlocks column outers
        { l with indent := outer, indents := outers, tokens := l.tokens.push .blockEnd }
    else l

/-- Closes the block collections to the right of a column, unless a flow collection is open. -/
def unwind (l : Lexer) (column : Int) : Lexer :=
  if l.flowLevel = 0 then closeBlocks column l.indents l else l

/-- Opens a block collection at a column to the right of the innermost one. -/
def openBlock (l : Lexer) (column : Nat) (position : Nat) (t : Token) : Lexer :=
  if l.indent < column then
    { l with indent := column, indents := l.indent :: l.indents }.pushAt position t
  else l

/-- Ends all blocks before something that belongs to no document. -/
def endDocument (l : Lexer) : Except Fault Lexer := do
  let l ← (l.unwind (-1)).dropKeyStart
  return { l with keyAllowed := false }

/-- Takes the start of a flow collection. -/
def takeFlowStart (l : Lexer) (t : Token) : Except Fault Lexer := do
  let l ← l.saveKeyStart
  return { l.skip 1 with flowLevel := l.flowLevel + 1, keyAllowed := true }.push t

/-- Takes the end of a flow collection. -/
def takeFlowEnd (l : Lexer) (t : Token) : Except Fault Lexer := do
  if l.flowLevel = 0 then throw .malformed
  else
    let l ← l.dropKeyStart
    return { l.skip 1 with flowLevel := l.flowLevel - 1, keyAllowed := false }.push t

/-- Takes the sign of an entry of a block sequence. -/
def takeBlockEntry (l : Lexer) : Except Fault Lexer := do
  let l ←
    if l.flowLevel ≠ 0 then pure l
    else if !l.keyAllowed then throw .malformed
    else pure (l.openBlock l.cursor.column l.tokens.size .blockSequenceStart)
  let l ← { l with keyAllowed := true }.dropKeyStart
  return (l.skip 1).push .blockEntry

/-- Takes the sign of a key. -/
def takeKey (l : Lexer) : Except Fault Lexer := do
  let l ←
    if l.flowLevel ≠ 0 then pure l
    else if !l.keyAllowed then throw .malformed
    else pure (l.openBlock l.cursor.column l.tokens.size .blockMappingStart)
  let l ← { l with keyAllowed := l.flowLevel == 0 }.dropKeyStart
  return (l.skip 1).push .key

/-- Takes the sign of a value. If a key may have begun before on this level, it did. -/
def takeValue (l : Lexer) : Except Fault Lexer := do
  let l ←
    match l.keyStarts.lookup l.flowLevel with
    | some k =>
      let l := { l with keyStarts := l.keyStarts.filter fun e => e.1 ≠ l.flowLevel }
      let l := l.pushAt k.position .key
      let l := if l.flowLevel = 0 then l.openBlock k.column k.position .blockMappingStart else l
      pure { l with keyAllowed := false }
    | none =>
      if l.flowLevel ≠ 0 then pure { l with keyAllowed := false }
      else if !l.keyAllowed then throw .malformed
      else pure (l.openBlock l.cursor.column l.tokens.size .blockMappingStart)
  return (l.skip 1).push .value

/-- Takes a token that may be a key and after which no key can begin. -/
def takeAtom (l : Lexer) (take : Cursor → Except Fault (Token × Cursor)) : Except Fault Lexer := do
  let l ← l.saveKeyStart
  let (t, c) ← take l.cursor
  return { l with cursor := c, keyAllowed := false }.push t

/-- Takes a block scalar. -/
def takeBlockScalar (l : Lexer) (folded : Bool) : Except Fault Lexer := do
  let l ← l.dropKeyStart
  let (text, c) ← orMalformed (takeBlock folded l.indent l.cursor)
  return { l with cursor := c, keyAllowed := true }.push (.scalar (String.ofList text) false)

/-- Takes a plain scalar. A key may begin after it if a line has ended. -/
def takePlainScalar (l : Lexer) : Except Fault Lexer := do
  let l ← l.saveKeyStart
  let (text, c, broke) := takePlain (l.flowLevel ≠ 0) (l.indent + 1) l.cursor
  return { l with cursor := c, keyAllowed := broke }.push (.scalar (String.ofList text) true)

/-- Whether a plain scalar can begin here. -/
def plainStarts (l : Lexer) : Bool :=
  let a := l.cursor.peek
  !(isBlankOrEnd a || "-?:,[]\x7b\x7d#&*!|>'\"%@\x60".toList.contains a) ||
    (!isBlankOrEnd (l.cursor.peekAt 1) &&
      (a = '-' || (l.flowLevel == 0 && (a = '?' || a = ':'))))

/-- Takes the next token of a text that has not come to its end. -/
def takeToken (l : Lexer) : Except Fault Lexer :=
  let c := l.cursor
  let inFlow := l.flowLevel ≠ 0
  let alone := isBlankOrEnd (c.peekAt 1)
  if c.column = 0 ∧ c.peek = '%' then do
    let l ← l.endDocument
    let (t, c) ← orMalformed (takeDirective l.cursor)
    return { l with cursor := c }.push t
  else if c.column = 0 ∧ c.atSeparator then do
    let l ← l.endDocument
    return (l.skip 3).push (if c.peek = '-' then .documentStart else .documentEnd)
  else if c.peek = '[' then l.takeFlowStart .flowSequenceStart
  else if c.peek = '\x7b' then l.takeFlowStart .flowMappingStart
  else if c.peek = ']' then l.takeFlowEnd .flowSequenceEnd
  else if c.peek = '\x7d' then l.takeFlowEnd .flowMappingEnd
  else if c.peek = ',' then do
    let l ← { l with keyAllowed := true }.dropKeyStart
    return (l.skip 1).push .flowEntry
  else if c.peek = '-' ∧ alone then l.takeBlockEntry
  else if c.peek = '?' ∧ (inFlow ∨ alone) then l.takeKey
  else if c.peek = ':' ∧ (inFlow ∨ alone) then l.takeValue
  else if c.peek = '*' then
    l.takeAtom fun c => (orMalformed (takeAnchor c)).map fun r => (.alias r.1, r.2)
  else if c.peek = '&' then
    l.takeAtom fun c => (orMalformed (takeAnchor c)).map fun r => (.anchor r.1, r.2)
  else if c.peek = '!' then
    l.takeAtom fun c => (orMalformed (takeTag c)).map fun r => (.tag r.1, r.2)
  else if c.peek = '|' ∧ !inFlow then l.takeBlockScalar false
  else if c.peek = '>' ∧ !inFlow then l.takeBlockScalar true
  else if c.peek = '\'' ∨ c.peek = '"' then
    l.takeAtom fun c =>
      (takeQuoted (c.peek = '"') c).map fun r => (.scalar (String.ofList r.1) false, r.2)
  else if l.plainStarts then l.takePlainScalar
  else .error .malformed

/-- Takes tokens to the end of the text, or until there is a fault. -/
def takeAll : Nat → Lexer → Lexer × Option Fault
  | 0, l => (l, some .malformed)
  | fuel + 1, l =>
    let l := l.skipToToken (l.cursor.rest.length + 1)
    match l.dropStale with
    | .error f => (l, some f)
    | .ok l =>
      let l := l.unwind l.cursor.column
      let next := if l.cursor.rest.isEmpty then l.endDocument else l.takeToken
      match next with
      | .error f => (l, some f)
      | .ok after => if l.cursor.rest.isEmpty then (after, none) else takeAll fuel after

end Lexer

/-- Whether a character may stand in a text. -/
def isAllowed (c : Char) : Bool :=
  let n := c.toNat
  c = '\t' || c = '\n' || c = '\r' || (0x20 ≤ n && n ≤ 0x7e) || n = 0x85 ||
    (0xa0 ≤ n && n ≤ 0xd7ff) || (0xe000 ≤ n && n ≤ 0xfffd) || 0x10000 ≤ n

/-- The tokens of a text, and what is wrong behind them if they do not reach its end. Every token
takes a character, so the length of the text is fuel enough. A byte order mark at the start does not
count. -/
def Token.ofText (cs : List Char) : List Token × Option Fault :=
  if cs.all isAllowed then
    let start : Cursor := { rest := cs }
    let cursor := if start.peek = '\ufeff' then start.next else start
    let (l, fault?) := Lexer.takeAll (cs.length + 1) { cursor }
    (l.tokens.toList, fault?)
  else ([], some .malformed)

end TypeAlias.Data.Yaml
