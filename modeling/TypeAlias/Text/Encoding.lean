import TypeAlias.Text.Surrogate

/-!
# Encodings of text

A text that is sent as bytes is in UTF-8, UTF-16 or UTF-32. Which of them is told by the null bytes
among the first four, because such a text begins with characters of ASCII.
-/

namespace TypeAlias.Text

/-- An encoding of text; the wider units have their most or their least significant byte first. -/
inductive Encoding where
  | utf8
  | utf16 (bigEndian : Bool)
  | utf32 (bigEndian : Bool)
  deriving DecidableEq

namespace Encoding

/-- The encoding of bytes. -/
def ofBytes : List UInt8 → Encoding
  | 0 :: 0 :: _ :: _ :: _ => utf32 true
  | 0 :: _ :: _ :: _ :: _ => utf16 true
  | _ :: 0 :: 0 :: 0 :: _ => utf32 false
  | _ :: 0 :: _ :: _ :: _ => utf16 false
  | [0, _] => utf16 true
  | [_, 0] => utf16 false
  | _ => utf8

/-- The units of a given number of bytes; none if bytes are left over. -/
def units? (width : Nat) (bigEndian : Bool) (bytes : List UInt8) : Option (List Nat) :=
  if bytes.length % width = 0 then
    some <| (List.range (bytes.length / width)).map fun i =>
      let unit := (bytes.drop (width * i)).take width
      (if bigEndian then unit else unit.reverse).foldl (fun n b => 256 * n + b.toNat) 0
  else none

/-- The character with a code point, if there is one, or the stand-in for it. -/
def charAt? (n : Nat) : Option Char :=
  if n < 0x110000 then some (ofCodePoint n) else none

/-- The characters that units of 16 bits stand for, of which two may make a pair. -/
def ofUnits16? : List Nat → Option (List Char)
  | [] => some []
  | high :: low :: rest =>
    if 0xd800 ≤ high ∧ high < 0xdc00 ∧ 0xdc00 ≤ low ∧ low < 0xe000 then
      (ofUnits16? rest).map
        (Char.ofNat (0x10000 + (high - 0xd800) * 0x400 + (low - 0xdc00)) :: ·)
    else do return (← charAt? high) :: (← ofUnits16? (low :: rest))
  | [unit] => (charAt? unit).map fun c => [c]

/-- The text that bytes stand for; a byte order mark at the start of UTF-8 does not count. -/
def decode? (bytes : List UInt8) : Option (List Char) :=
  match ofBytes bytes with
  | utf8 =>
    (String.fromUTF8? ⟨bytes.toArray⟩).map fun text =>
      match text.toList with
      | '\ufeff' :: cs => cs
      | cs => cs
  | utf16 bigEndian => (units? 2 bigEndian bytes).bind ofUnits16?
  | utf32 bigEndian => (units? 4 bigEndian bytes).bind fun us => us.mapM charAt?

end Encoding

end TypeAlias.Text
