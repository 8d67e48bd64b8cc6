import TypeAlias.Data.Value
import TypeAlias.ErrorClass
import TypeAlias.Text.Integer
import TypeAlias.Text.Surrogate

/-!
# Reading JSON

A text is read from the left. What follows the part that has been read is handed on, so that a fault
is located by how much of the text was left. Beyond the standard, `NaN`, `Infinity` and `-Infinity`
are numbers. Integers with very many digits and values that are nested very deeply are not read.
-/

namespace TypeAlias.Data.Json

/-- What is wrong with a text. -/
inductive Fault where
  | expectingValue
  | expectingName
  | expectingColon
  | expectingComma
  | extraData
  | unterminatedString
  | controlCharacter
  | badEscape
  | badUnicodeEscape
  | byteOrderMark
  /-- An integer has more digits than are read. -/
  | tooManyDigits (count : Nat)
  /-- A list or an object is nested too deeply. -/
  | tooDeep (isObject : Bool)
  deriving DecidableEq

/-- What is said of a fault. -/
def Fault.message : Fault → String
  | expectingValue => "Expecting value"
  | expectingName => "Expecting property name enclosed in double quotes"
  | expectingColon => "Expecting ':' delimiter"
  | expectingComma => "Expecting ',' delimiter"
  | extraData => "Extra data"
  | unterminatedString => "Unterminated string starting at"
  | controlCharacter => "Invalid control character at"
  | badEscape => "Invalid \\escape"
  | badUnicodeEscape => "Invalid \\uXXXX escape"
  | byteOrderMark => "Unexpected UTF-8 BOM (decode using utf-8-sig)"
  | tooManyDigits count => Text.tooManyDigitsMessage count
  | tooDeep isObject =>
    "maximum recursion depth exceeded while decoding a JSON " ++
      (if isObject then "object" else "array") ++ " from a unicode string"

/-- The class of the error that a fault raises. -/
def Fault.errorClass : Fault → ErrorClass
  | tooManyDigits _ => .value
  | tooDeep _ => .recursion
  | _ => .jsonSyntax

/-- Whether a fault makes a text something other than JSON; else it goes beyond what is read. -/
def Fault.isMalformed (f : Fault) : Bool :=
  f.errorClass = .jsonSyntax

/-- A fault and the number of characters from its place to the end. -/
structure Failure where
  fault : Fault
  remaining : Nat
  deriving DecidableEq

/-- What was read and what follows it. -/
abbrev Step (α : Type) : Type := Except Failure (α × List Char)

/-- The failure at the start of some characters. -/
def failAt {α : Type} (fault : Fault) (rest : List Char) : Except Failure α :=
  .error ⟨fault, rest.length⟩

/-- Skips the blanks that may stand between tokens. -/
def skipBlanks (cs : List Char) : List Char :=
  cs.dropWhile fun c => c = ' ' ∨ c = '\t' ∨ c = '\n' ∨ c = '\r'

/-- The character that a backslash and a letter stand for. -/
def simpleEscape? : Char → Option Char
  | '"' => some '"'
  | '\\' => some '\\'
  | '/' => some '/'
  | 'b' => some '\x08'
  | 'f' => some '\x0c'
  | 'n' => some '\n'
  | 'r' => some '\r'
  | 't' => some '\t'
  | _ => none

/-- Reads what follows the backslash and the letter `u` of an escape. A low surrogate after a high
one is taken with it, when something follows the pair. -/
def readUnicode (cs : List Char) : Step Char :=
  let fault : Except Failure (Char × List Char) := .error ⟨.badUnicodeEscape, cs.length + 1⟩
  let after := cs.drop 4
  if after.isEmpty then fault
  else
    match Text.hexValue? (cs.take 4) with
    | none => fault
    | some high =>
      if 0xd800 ≤ high ∧ high < 0xdc00 ∧ 6 < after.length ∧ after.take 2 = ['\\', 'u'] then
        match Text.hexValue? ((after.drop 2).take 4) with
        | none => .error ⟨.badUnicodeEscape, after.length - 1⟩
        | some low =>
          if 0xdc00 ≤ low ∧ low < 0xe000 then
            .ok (Char.ofNat (0x10000 + (high - 0xd800) * 0x400 + (low - 0xdc00)), after.drop 6)
          else .ok (Text.ofCodePoint high, after)
      else .ok (Text.ofCodePoint high, after)

theorem length_readUnicode {cs rest : List Char} {c : Char} (h : readUnicode cs = .ok (c, rest)) :
    rest.length ≤ cs.length := by
  unfold readUnicode at h
  simp only at h
  split at h
  · cases h
  · split at h
    · cases h
    · split at h
      · split at h
        · cases h
        · split at h <;> simp only [Except.ok.injEq, Prod.mk.injEq] at h <;>
            obtain ⟨-, rfl⟩ := h <;> simp only [List.length_drop] <;> omega
      · simp only [Except.ok.injEq, Prod.mk.injEq] at h
        obtain ⟨-, rfl⟩ := h
        simp

/-- Reads a string up to its closing quote. `start` is the number of characters from the opening
quote to the end, and `done` what has been read, the last character first. -/
def readString (start : Nat) (done : List Char) (cs : List Char) : Step String :=
  match cs with
  | [] => .error ⟨.unterminatedString, start⟩
  | c :: rest =>
    if c = '"' then .ok (String.ofList done.reverse, rest)
    else if c = '\\' then
      match rest with
      | [] => .error ⟨.unterminatedString, start⟩
      | e :: rest =>
        if e = 'u' then
          match h : readUnicode rest with
          | .error e => .error e
          | .ok (c, rest') =>
            have := length_readUnicode h
            readString start (c :: done) rest'
        else
          match simpleEscape? e with
          | none => failAt .badEscape cs
          | some c => readString start (c :: done) rest
    else if c.toNat < 0x20 then failAt .controlCharacter cs
    else readString start (c :: done) rest
termination_by cs.length

/-- The value of decimal digits behind digits with a given value. -/
def decimalValueAfter (before : Nat) (cs : List Char) : Nat :=
  cs.foldl (fun n c => 10 * n + (c.toNat - '0'.toNat)) before

/-- The value of decimal digits. -/
def decimalValue (cs : List Char) : Nat :=
  decimalValueAfter 0 cs

/-- The digits at the start of a text and what follows them. -/
def spanDigits (cs : List Char) : List Char × List Char :=
  cs.span Char.isDigit

/-- Reads the exponent of a number, if there is one. -/
def readExponent (cs : List Char) : Option Int × List Char :=
  match cs with
  | e :: rest =>
    if e = 'e' ∨ e = 'E' then
      let (negative, digits) :=
        match rest with
        | '+' :: r => (false, r)
        | '-' :: r => (true, r)
        | r => (false, r)
      match spanDigits digits with
      | ([], _) => (none, cs)
      | (ds, after) =>
        (some (if negative then -(decimalValue ds : Int) else decimalValue ds), after)
    else (none, cs)
  | [] => (none, cs)

/-- Reads a number: an integer, unless it has a fraction or an exponent. -/
def readNumber (cs : List Char) : Step Scalar :=
  let (negative, unsigned) :=
    match cs with
    | '-' :: rest => (true, rest)
    | _ => (false, cs)
  let (whole, after) :=
    match unsigned with
    | '0' :: rest => (['0'], rest)
    | _ => spanDigits unsigned
  if whole.isEmpty then failAt .expectingValue cs
  else
    let (fraction, after) :=
      match after with
      | '.' :: rest =>
        let (ds, r) := spanDigits rest
        if ds.isEmpty then ([], after) else (ds, r)
      | _ => ([], after)
    let (exponent, after) := readExponent after
    let digits := decimalValue (whole ++ fraction)
    if fraction.isEmpty && exponent.isNone then
      if Text.mostDigits < whole.length then failAt (.tooManyDigits whole.length) cs
      else .ok (.int (if negative then -digits else digits), after)
    else
      .ok (.float (.ofDecimal negative digits (exponent.getD 0 - fraction.length)), after)

/-- Reads a word or a number. -/
def readScalar (cs : List Char) : Step Scalar :=
  let words : List (String × Scalar) :=
    [("null", .null), ("true", .bool true), ("false", .bool false), ("NaN", .float .nan),
      ("Infinity", .float (.infinite false)), ("-Infinity", .float (.infinite true))]
  match words.find? fun w => w.1.toList.isPrefixOf cs with
  | some (word, s) => .ok (s, cs.drop word.length)
  | none => readNumber cs

/-- Reads the colon between a key and its value. -/
def readColon (cs : List Char) : Except Failure (List Char) :=
  match cs with
  | ':' :: rest => .ok rest
  | _ => failAt .expectingColon cs

mutual

/-- Reads a value that starts with the first character; lists and objects may be nested in it to a
given depth. -/
def readValue : Nat → Nat → List Char → Except Failure (Value × List Char)
  | 0, _, cs => failAt .expectingValue cs
  | fuel + 1, depth, cs =>
    match cs with
    | '"' :: rest => (readString cs.length [] rest).map fun r => (.str r.1, r.2)
    | '[' :: rest =>
      match depth, skipBlanks rest with
      | 0, _ => failAt (.tooDeep false) cs
      | _, ']' :: after => .ok (.list [], after)
      | depth + 1, inner => readItems fuel depth [] inner
    | '\x7b' :: rest =>
      match depth, skipBlanks rest with
      | 0, _ => failAt (.tooDeep true) cs
      | _, '\x7d' :: after => .ok (.map [], after)
      | depth + 1, inner => readMembers fuel depth [] inner
    | _ => (readScalar cs).map fun r => (.scalar r.1, r.2)

/-- Reads the items of a list that is not empty, and its end. -/
def readItems : Nat → Nat → List Value → List Char → Except Failure (Value × List Char)
  | 0, _, _, cs => failAt .expectingValue cs
  | fuel + 1, depth, done, cs => do
    let (v, rest) ← readValue fuel depth cs
    match skipBlanks rest with
    | ']' :: after => .ok (.list (v :: done).reverse, after)
    | ',' :: after => readItems fuel depth (v :: done) (skipBlanks after)
    | other => failAt .expectingComma other

/-- Reads the members of an object that is not empty, and its end. -/
def readMembers :
    Nat → Nat → List (Scalar × Value) → List Char → Except Failure (Value × List Char)
  | 0, _, _, cs => failAt .expectingName cs
  | fuel + 1, depth, done, cs =>
    match cs with
    | '"' :: rest => do
      let (key, rest) ← readString cs.length [] rest
      let afterColon ← readColon (skipBlanks rest)
      let (v, rest) ← readValue fuel depth (skipBlanks afterColon)
      let done := (.str key, v) :: done
      match skipBlanks rest with
      | '\x7d' :: after => .ok (.map (Entries.ofList done.reverse), after)
      | ',' :: after => readMembers fuel depth done (skipBlanks after)
      | other => failAt .expectingComma other
    | _ => failAt .expectingName cs

end

/-- Reads a text that holds one value, nested to a given depth at most, and nothing else. Each level
of nesting takes two calls, so twice the length is fuel enough. -/
def readWithin (depth : Nat) (cs : List Char) : Except Failure Value :=
  if cs.head? = some '\ufeff' then failAt .byteOrderMark cs
  else do
    let (v, rest) ← readValue (2 * cs.length + 2) depth (skipBlanks cs)
    match skipBlanks rest with
    | [] => .ok v
    | other => failAt .extraData other

/-- How deep values may be nested. -/
def mostLevels : Nat :=
  990

/-- Reads a text that holds one value and nothing else. -/
def read (cs : List Char) : Except Failure Value :=
  readWithin mostLevels cs

/-- The number of characters before a failure. -/
def Failure.position (e : Failure) (cs : List Char) : Nat :=
  cs.length - e.remaining

/-- What is said of a failure, with its line, its column in the line and its position if the text is
malformed there. -/
def Failure.message (e : Failure) (cs : List Char) : String :=
  let position := e.position cs
  let before := cs.take position
  let line := before.count '\n' + 1
  let column := (before.reverse.takeWhile (· ≠ '\n')).length + 1
  if e.fault.isMalformed then
    e.fault.message ++ ": line " ++ toString line ++ " column " ++ toString column ++ " (char " ++
      toString position ++ ")"
  else e.fault.message

end TypeAlias.Data.Json
