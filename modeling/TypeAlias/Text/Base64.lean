/-!
# Base64

Four characters of an alphabet of 64 stand for three bytes. Characters outside of the alphabet do
not count. Padding fills up the last four; the text ends where padding is complete.
-/

namespace TypeAlias.Text.Base64

/-- The character that fills up the last four. -/
def padding : Char :=
  '='

/-- The six bits that a character stands for. -/
def sextet? (c : Char) : Option Nat :=
  if 'A' ≤ c ∧ c ≤ 'Z' then some (c.toNat - 'A'.toNat)
  else if 'a' ≤ c ∧ c ≤ 'z' then some (c.toNat - 'a'.toNat + 26)
  else if '0' ≤ c ∧ c ≤ '9' then some (c.toNat - '0'.toNat + 52)
  else if c = '+' then some 62
  else if c = '/' then some 63
  else none

/-- The bytes that the sextets of a text stand for. `held` are the sextets of four that are not
complete, and `pads` counts the padding right before. There are none when the text ends within
four. -/
def decodeFrom (held : List Nat) (pads : Nat) : List Char → Option (List UInt8)
  | [] => if held.isEmpty then some [] else none
  | c :: cs =>
    if c = padding then
      if 2 ≤ held.length ∧ 4 ≤ held.length + pads + 1 then some (ends held)
      else decodeFrom held (if 2 ≤ held.length then pads + 1 else pads) cs
    else
      match sextet? c with
      | none => decodeFrom held pads cs
      | some s =>
        match held with
        | [a, b, d] =>
          (decodeFrom [] 0 cs).map ([byte a b 2 16, byte b d 4 4, byte d s 6 1] ++ ·)
        | _ => decodeFrom (held ++ [s]) 0 cs
where
  /-- The byte that takes its upper bits from one sextet, shifted, and the others from the next. -/
  byte (upper lower shift divisor : Nat) : UInt8 :=
    (upper * Nat.pow 2 shift + lower / divisor).toUInt8
  /-- The bytes of four that padding has filled up. -/
  ends : List Nat → List UInt8
    | [a, b] => [byte a b 2 16]
    | [a, b, d] => [byte a b 2 16, byte b d 4 4]
    | _ => []

/-- The bytes that a text stands for. -/
def decode? (text : List Char) : Option (List UInt8) :=
  decodeFrom [] 0 text

end TypeAlias.Text.Base64
