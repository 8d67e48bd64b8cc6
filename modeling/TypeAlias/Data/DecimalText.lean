import TypeAlias.Data.Binary64
import TypeAlias.Text.Integer

/-!
# Decimals as texts

A number is written with digits of any script, which may have a point among them and an exponent of
ten behind them. A sign may stand in front, and blanks around the whole. Words stand for infinity
and for what is no number.
-/

namespace TypeAlias.Data

/-- The values of the digits at the start of a text, and what follows them. -/
def takeDecimalDigits (cs : List Char) : List Nat × List Char :=
  ((cs.takeWhile fun c => (Text.digitValue? c).isSome).filterMap Text.digitValue?,
    cs.dropWhile fun c => (Text.digitValue? c).isSome)

/-- The words that stand for infinity. -/
def infinityWords : List String :=
  ["inf", "infinity"]

/-- The exponent that a text is. -/
def exponentOfText? (cs : List Char) : Option Int :=
  match cs with
  | [] => some 0
  | e :: rest =>
    let (negative, unsigned) := Text.splitSign rest
    let (ds, after) := takeDecimalDigits unsigned
    if (e = 'e' || e = 'E') && !ds.isEmpty && after.isEmpty then
      let n : Int := Text.digitsValue 10 ds
      some (if negative then -n else n)
    else none

/-- The nearest number to the one that a text is. -/
def Binary64.ofText? (text : List Char) : Option Binary64 :=
  let (negative, unsigned) := Text.splitSign (Text.withoutPadding text)
  let word := String.ofList (unsigned.map Char.toLower)
  if infinityWords.contains word then some (.infinite negative)
  else if word = "nan" then some .nan
  else
    let (whole, after) := takeDecimalDigits unsigned
    let (fraction, after) :=
      match after with
      | '.' :: rest => takeDecimalDigits rest
      | _ => ([], after)
    if whole.isEmpty && fraction.isEmpty then none
    else
      (exponentOfText? after).map fun e =>
        .ofDecimal negative (Text.digitsValue 10 (whole ++ fraction)) (e - fraction.length)

end TypeAlias.Data
