/-!
# Binary numbers of 64 bits

A finite number is an integer times a power of two. A decimal is read as the nearest such number,
and a number is written with the fewest decimal digits that read back. All arithmetic is exact.
-/

namespace TypeAlias.Data

/-- A binary floating-point number with 53 significant bits. -/
inductive Binary64 where
  | nan
  | infinite (negative : Bool)
  /-- The number `m * 2 ^ e`, negated if `negative`. -/
  | finite (negative : Bool) (m : Nat) (e : Int)
  deriving DecidableEq

/-- A quotient rounded to the nearest integer; a tie goes to the even one. -/
def roundDiv (num den : Nat) : Nat :=
  let q := num / den
  let r := num % den
  if den < 2 * r ∨ (den = 2 * r ∧ q % 2 = 1) then q + 1 else q

/-- Numerator and denominator of `n * b ^ e`. -/
def scaled (b n : Nat) (e : Int) : Nat × Nat :=
  if 0 ≤ e then (n * b.pow e.toNat, 1) else (n, b.pow (-e).toNat)

namespace Binary64

/-- The least integer that has more than 53 binary digits. -/
def significandBound : Nat :=
  0x20000000000000

/-- The nearest number to a quotient that is neither zero nor far out of range. -/
def ofQuotient (negative : Bool) (num den : Nat) : Binary64 :=
  let guess : Int := (Nat.log2 num : Int) - (Nat.log2 den : Int) - 53
  let quotientAt (e : Int) : Nat × Nat :=
    if 0 ≤ e then (num, den * Nat.pow 2 e.toNat) else (num * Nat.pow 2 (-e).toNat, den)
  let (n, d) := quotientAt guess
  let e := max (-1074) (if n / d < significandBound then guess else guess + 1)
  let (n, d) := quotientAt e
  let m := roundDiv n d
  let (m, e) := if m = significandBound then (significandBound / 2, e + 1) else (m, e)
  if 971 < e then infinite negative else finite negative m e

/-- The nearest number to `digits * 10 ^ exponent`. -/
def ofDecimal (negative : Bool) (digits : Nat) (exponent : Int) : Binary64 :=
  if digits = 0 then finite negative 0 0
  else
    let magnitude : Int := (Nat.toDigits 10 digits).length + exponent
    if 310 < magnitude then infinite negative
    else if magnitude < -330 then finite negative 0 0
    else
      let (num, den) := scaled 10 digits exponent
      ofQuotient negative num den

/-- The nearest number to `m * 2 ^ e`. -/
def ofScaled (negative : Bool) (m : Nat) (e : Int) : Binary64 :=
  if m = 0 then finite negative 0 0
  else
    let (num, den) := scaled 2 m e
    ofQuotient negative num den

/-- A number with the opposite sign. -/
def neg : Binary64 → Binary64
  | nan => nan
  | infinite negative => infinite !negative
  | finite negative m e => finite (!negative) m e

/-- The nearest number to the sum of two. -/
def add : Binary64 → Binary64 → Binary64
  | nan, _ | _, nan => nan
  | infinite a, infinite b => if a = b then infinite a else nan
  | infinite a, _ | _, infinite a => infinite a
  | finite a m e, finite b n f =>
    let unit := min e f
    let part (negative : Bool) (m : Nat) (e : Int) : Int :=
      let size : Int := m * Nat.pow 2 (e - unit).toNat
      if negative then -size else size
    let sum := part a m e + part b n f
    if sum = 0 then finite (a && b) 0 0 else ofScaled (sum < 0) sum.natAbs unit

/-- The nearest number to the product of two. -/
def mul : Binary64 → Binary64 → Binary64
  | nan, _ | _, nan => nan
  | infinite a, infinite b => infinite (a != b)
  | infinite a, finite b n _ | finite b n _, infinite a =>
    if n = 0 then nan else infinite (a != b)
  | finite a m e, finite b n f => ofScaled (a != b) (m * n) (e + f)

/-- The integer that a number is, if it is one. -/
def toInt? : Binary64 → Option Int
  | nan | infinite _ => none
  | finite negative m e =>
    let (num, den) := scaled 2 m e
    if num % den = 0 then
      some (if negative then -(num / den : Nat) else (num / den : Nat))
    else none

/-- The exponent of the leading decimal digit of a quotient that is not zero. -/
def leadingExponent (num den : Nat) : Int :=
  if den ≤ num then (Nat.toDigits 10 (num / den)).length - 1
  else
    let guess : Int := (Nat.toDigits 10 num).length - (Nat.toDigits 10 den).length
    let (n, d) := scaled 10 1 (-guess)
    if den * d ≤ num * n then guess else guess - 1

/-- The two neighbours of a quotient among the multiples of `10 ^ unit`, the nearer one first; of
two at the same distance the even one. -/
def neighbours (num den : Nat) (unit : Int) : List Nat :=
  let (n, d) := scaled 10 1 (-unit)
  let near := roundDiv (num * n) (den * d)
  let low := num * n / (den * d)
  if near = low then [low, low + 1] else [low + 1, low]

/-- The fewest digits that read back as the number `m * 2 ^ e`, and the exponent of the last one. -/
def shortest (m : Nat) (e : Int) : Nat × Int :=
  let (num, den) := scaled 2 m e
  let lead := leadingExponent num den
  let readsBack (n : Nat) (unit : Int) := ofDecimal false n unit == ofQuotient false num den
  let found := (List.range 17).findSome? fun (places : Nat) =>
    let unit := lead - places
    ((neighbours num den unit).find? (readsBack · unit)).map fun n => (n, unit)
  found.getD (0, 0)

/-- The text of a positive decimal: positional notation from `10 ^ -4` up to below `10 ^ 16`, a
power of ten outside. -/
def decimalText (digits : Nat) (unit : Int) : String :=
  let all := Nat.toDigits 10 digits
  let lead : Int := unit + all.length - 1
  let kept := (all.reverse.dropWhile (· = '0')).reverse
  if lead < -4 ∨ 16 ≤ lead then
    let size := Nat.toDigits 10 lead.natAbs
    let size := List.replicate (2 - size.length) '0' ++ size
    let fraction := if kept.length ≤ 1 then [] else '.' :: kept.drop 1
    String.ofList
      (kept.take 1 ++ fraction ++ ['e', if lead < 0 then '-' else '+'] ++ size)
  else if lead < 0 then
    String.ofList (['0', '.'] ++ List.replicate (-lead - 1).toNat '0' ++ kept)
  else
    let whole := (lead + 1).toNat
    let padded := kept ++ List.replicate (whole - kept.length) '0'
    let fraction := padded.drop whole
    String.ofList (padded.take whole ++ ['.'] ++ if fraction.isEmpty then ['0'] else fraction)

/-- The text of a number. -/
def text : Binary64 → String
  | nan => "nan"
  | infinite negative => if negative then "-inf" else "inf"
  | finite negative m e =>
    let positive :=
      if m = 0 then "0.0"
      else
        let (digits, unit) := shortest m e
        decimalText digits unit
    if negative then "-" ++ positive else positive

end Binary64

end TypeAlias.Data
