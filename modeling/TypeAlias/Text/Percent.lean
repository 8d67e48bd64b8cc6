import TypeAlias.Text.Digits

/-!
# Percent escapes

In the address of a resource, a percent sign and two hexadecimal digits stand for a byte of UTF-8. A
percent sign before anything else stands for itself.
-/

namespace TypeAlias.Text

/-- The bytes of a text, with escapes replaced by the bytes they stand for. -/
def unescapedBytes : List Char → List UInt8
  | [] => []
  | c :: cs =>
    match c, cs with
    | '%', a :: b :: rest =>
      match hexValue? [a, b] with
      | some n => n.toUInt8 :: unescapedBytes rest
      | none => String.utf8EncodeChar '%' ++ unescapedBytes (a :: b :: rest)
    | c, cs => String.utf8EncodeChar c ++ unescapedBytes cs

/-- The characters that bytes stand for from a position on. Each byte that is part of no character
counts as the replacement character. -/
def charsFrom (bytes : ByteArray) (i : Nat) : List Char :=
  if i < bytes.size then
    match bytes.utf8DecodeChar? i with
    | some c =>
      have := c.utf8Size_pos
      c :: charsFrom bytes (i + c.utf8Size)
    | none => '\ufffd' :: charsFrom bytes (i + 1)
  else []
termination_by bytes.size - i

/-- A text with escapes replaced by the characters they stand for. -/
def unescaped (cs : List Char) : List Char :=
  charsFrom ⟨(unescapedBytes cs).toArray⟩ 0

end TypeAlias.Text
