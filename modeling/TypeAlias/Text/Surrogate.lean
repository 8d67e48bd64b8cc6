/-!
# Lone surrogates

The code points from U+D800 to U+DFFF are halves of pairs. One of them by itself is no character and
cannot be written in any encoding, yet a text that is put together from escapes may hold it. Here it
is represented by a character at the end of the last private plane, its stand-in. A text that holds
such a character in its own right is not told apart from one with a lone surrogate.
-/

namespace TypeAlias.Text

/-- Whether a code point is half of a pair. -/
def isSurrogate (n : Nat) : Bool :=
  0xd800 ≤ n && n < 0xe000

/-- The code of the stand-in for the first surrogate. -/
def firstStandIn : Nat :=
  0x10f800

/-- Whether a character stands in for a lone surrogate. -/
def isStandIn (c : Char) : Bool :=
  firstStandIn ≤ c.toNat

/-- The character with a code point, or the stand-in for it. -/
def ofCodePoint (n : Nat) : Char :=
  Char.ofNat (if isSurrogate n then firstStandIn + (n - 0xd800) else n)

/-- The code point that a character represents. -/
def codePoint (c : Char) : Nat :=
  if isStandIn c then 0xd800 + (c.toNat - firstStandIn) else c.toNat

/-- Whether a text holds a lone surrogate. -/
def hasSurrogate (s : String) : Bool :=
  s.toList.any isStandIn

theorem toNat_ofCodePoint {n : Nat} (h : n < firstStandIn) :
    (ofCodePoint n).toNat = if isSurrogate n then firstStandIn + (n - 0xd800) else n := by
  have hvalid : (if isSurrogate n then firstStandIn + (n - 0xd800) else n).isValidChar := by
    simp only [isSurrogate, Bool.and_eq_true, decide_eq_true_eq]
    unfold firstStandIn Nat.isValidChar at *
    split <;> omega
  rw [ofCodePoint, Char.ofNat, dif_pos hvalid]
  rfl

/-- Nothing is lost where a surrogate is represented by its stand-in. -/
theorem codePoint_ofCodePoint {n : Nat} (h : n < firstStandIn) : codePoint (ofCodePoint n) = n := by
  simp only [codePoint, isStandIn, toNat_ofCodePoint h, isSurrogate, Bool.and_eq_true,
    decide_eq_true_eq]
  unfold firstStandIn at *
  split <;> split <;> omega

end TypeAlias.Text
