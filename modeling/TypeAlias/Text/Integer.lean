import TypeAlias.Text.Blank
import TypeAlias.Text.Digits

/-!
# Integers as texts

An integer is written to a base with digits of any script; letters of the Latin alphabet are digits
above nine. A sign and the sign of the base may stand in front, single underscores between digits,
and blanks around the whole.
-/

namespace TypeAlias.Text

/-- Whether a character may surround a number: blanks other than the information separators. -/
def isPadding (c : Char) : Bool :=
  isBlank c && !(0x1c ≤ c.toNat && c.toNat ≤ 0x1f)

/-- A text without the blanks that may surround a number. -/
def withoutPadding (cs : List Char) : List Char :=
  ((cs.dropWhile isPadding).reverse.dropWhile isPadding).reverse

/-- Why a text is no integer. -/
inductive IntegerFault where
  | malformed
  /-- There are more digits than are read. -/
  | tooManyDigits (count : Nat)
  deriving DecidableEq

/-- The greatest number of digits that are read, unless the base is a power of two. -/
def mostDigits : Nat :=
  4300

/-- What is said of an integer with too many digits. -/
def tooManyDigitsMessage (count : Nat) : String :=
  "Exceeds the limit (" ++ toString mostDigits ++
    " digits) for integer string conversion: value has " ++ toString count ++
    " digits; use sys.set_int_max_str_digits() to increase the limit"

/-- The value of a letter or digit below a base. -/
def digitBelow? (base : Nat) (c : Char) : Option Nat :=
  let value? :=
    match digitValue? c with
    | some d => some d
    | none =>
      if 'a' ≤ c ∧ c ≤ 'z' then some (c.toNat - 'a'.toNat + 10)
      else if 'A' ≤ c ∧ c ≤ 'Z' then some (c.toNat - 'A'.toNat + 10)
      else none
  value?.filter (· < base)

/-- Splits a sign off: whether it is a minus sign, and the rest. -/
def splitSign : List Char → Bool × List Char
  | '-' :: cs => (true, cs)
  | '+' :: cs => (false, cs)
  | cs => (false, cs)

/-- The letter after a zero that is the sign of a base. -/
def baseLetter? : Nat → Option Char
  | 2 => some 'b'
  | 8 => some 'o'
  | 16 => some 'x'
  | _ => none

/-- A text without the sign of its base and an underscore after it. -/
def withoutBaseSign (base : Nat) (cs : List Char) : List Char :=
  match cs with
  | '0' :: c :: rest =>
    if some c.toLower = baseLetter? base then
      match rest with
      | '_' :: rest => rest
      | rest => rest
    else cs
  | cs => cs

/-- Whether every underscore stands between two other characters. The flag tells whether an
underscore may stand at the start. -/
def marksAreLone : Bool → List Char → Bool
  | mayStart, [] => mayStart
  | mayStart, c :: cs => if c = '_' then mayStart && marksAreLone false cs else marksAreLone true cs

/-- The value of digits to a base. -/
def digitsValue (base : Nat) (digits : List Nat) : Nat :=
  digits.foldl (fun n d => base * n + d) 0

/-- The integer that a text is. -/
def integer (base : Nat) (text : List Char) : Except IntegerFault Int :=
  let (negative, unsigned) := splitSign (text.dropWhile isPadding)
  let body := withoutBaseSign base unsigned
  let run := body.takeWhile fun c => c = '_' || (digitBelow? base c).isSome
  let digits := run.filterMap (digitBelow? base)
  if !marksAreLone false run then .error .malformed
  else if (baseLetter? base).isNone && mostDigits < digits.length then
    .error (.tooManyDigits digits.length)
  else if (body.drop run.length).all isPadding then
    let n := digitsValue base digits
    .ok (if negative then -(n : Int) else n)
  else .error .malformed

end TypeAlias.Text
