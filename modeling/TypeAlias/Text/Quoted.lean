import TypeAlias.Text.Printable
import TypeAlias.Text.Surrogate

/-!
# Quoted text

Messages show a text between quotes: single quotes, unless it holds a single quote and no double
one. Inside, the backslash, the quote in use, line feed, tabulator and carriage return stand after a
backslash, and any other character that is not printable is written by its code point. Bytes are
shown like the characters of ASCII, and others by their numbers.
-/

namespace TypeAlias.Text

/-- The hexadecimal digits of a number, in lower case, at least `width` of them. -/
def hexDigits (width n : Nat) : List Char :=
  let digits := Nat.toDigits 16 n
  List.replicate (width - digits.length) '0' ++ digits

namespace Quoted

/-- The quote that encloses a text. -/
def quoteFor (cs : List Char) : Char :=
  if '\'' ∈ cs ∧ '"' ∉ cs then '"' else '\''

/-- How a character is written between two given quotes. -/
def encodeChar (quote c : Char) : List Char :=
  if c = quote ∨ c = '\\' then ['\\', c]
  else if c = '\n' then ['\\', 'n']
  else if c = '\t' then ['\\', 't']
  else if c = '\r' then ['\\', 'r']
  else if isPrintable c then [c]
  else
    let n := codePoint c
    if n < 0x100 then '\\' :: 'x' :: hexDigits 2 n
    else if n < 0x10000 then '\\' :: 'u' :: hexDigits 4 n
    else '\\' :: 'U' :: hexDigits 8 n

/-- A text between its quotes. -/
def encode (cs : List Char) : List Char :=
  quoteFor cs :: cs.flatMap (encodeChar (quoteFor cs)) ++ [quoteFor cs]

end Quoted

/-- A text as messages show it. -/
def quoted (s : String) : String :=
  String.ofList (Quoted.encode s.toList)

/-- Bytes as messages show them. -/
def quotedBytes (bytes : List UInt8) : String :=
  let cs := bytes.map fun b => Char.ofNat b.toNat
  let quote := Quoted.quoteFor cs
  let inner := cs.flatMap fun c =>
    if c.toNat < 0x80 then Quoted.encodeChar quote c else '\\' :: 'x' :: hexDigits 2 c.toNat
  String.ofList ('b' :: quote :: inner ++ [quote])

end TypeAlias.Text
