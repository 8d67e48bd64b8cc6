import TypeAlias.Data.DecimalText
import TypeAlias.Data.Value
import TypeAlias.Data.Yaml.Fault
import TypeAlias.Data.Yaml.Kind
import TypeAlias.Text.Base64

/-!
# Scalars of a kind

The scalar that a text stands for when its kind is known. Underscores in numbers do not count, and
colons in numbers separate digits to base sixty.
-/

namespace TypeAlias.Data.Yaml

/-- A text without underscores. -/
def withoutMarks (text : String) : List Char :=
  text.toList.filter (· ≠ '_')

/-- The integer that a text is to a base. -/
def integerTo (base : Nat) (cs : List Char) : Except Fault Int :=
  (Text.integer base cs).mapError (Fault.ofInteger base cs)

/-- The integer that a text stands for. -/
def integerOf (text : String) : Except Fault Int := do
  let cs := withoutMarks text
  let unsigned := withoutSign cs
  let n ←
    match unsigned with
    | [] => throw .emptyNumber
    | ['0'] => pure 0
    | '0' :: 'b' :: ds => integerTo 2 ds
    | '0' :: 'x' :: ds => integerTo 16 ds
    | '0' :: _ => integerTo 8 unsigned
    | _ => do
      let parts ← (unsigned.splitOn ':').mapM (integerTo 10)
      pure (parts.foldl (fun n p => 60 * n + p) 0)
  return if cs.head? = some '-' then -n else n

/-- The number with a point that a text is. -/
def decimalOf (cs : List Char) : Except Fault Binary64 :=
  match Binary64.ofText? cs with
  | some x => .ok x
  | none => .error (.notFloat (String.ofList cs))

/-- The value of digits to base sixty, of which the last one comes first and has a given place
value. -/
def sexagesimal (place : Nat) (value : Binary64) : List Binary64 → Binary64
  | [] => value
  | d :: ds => sexagesimal (60 * place) (value.add (d.mul (.ofScaled false place 0))) ds

/-- The number with a point that a text stands for. -/
def floatOf (text : String) : Except Fault Binary64 := do
  let cs := (withoutMarks text).map Char.toLower
  let unsigned := withoutSign cs
  let x ←
    if cs.isEmpty then throw .emptyNumber
    else if unsigned = ".inf".toList then pure (.infinite false)
    else if unsigned = ".nan".toList then pure .nan
    else
      match unsigned.splitOn ':' with
      | [_] => decimalOf unsigned
      | parts => do
        let digits ← parts.mapM decimalOf
        pure (sexagesimal 1 (.finite false 0 0) digits.reverse)
  return if cs.head? = some '-' then x.neg else x

/-- The date or the time that a text stands for. -/
def timeOf (text : String) : Except Fault Scalar :=
  match moment? (withoutLastBreak text.toList) with
  | none => .error .notTimestamp
  | some m =>
    match m.clock with
    | none => ((Date.ofNumbers m.year m.month m.day).mapError Fault.calendar).map Scalar.date
    | some c =>
      let t : Timestamp := {
        date := ⟨m.year, m.month, m.day⟩
        hour := c.hour
        minute := c.minute
        second := c.second
        microsecond := c.microsecond
        zone := c.zone }
      (t.checked.mapError Fault.calendar).map Scalar.timestamp

/-- The truth value that a word stands for, in any case. -/
def boolOf (text : String) : Except Fault Bool :=
  let word := text.map Char.toLower
  match boolWords.lookup word with
  | some b => .ok b
  | none => .error (.notBool word)

/-- The bytes that a text stands for. -/
def bytesOf (text : String) : Except Fault (List UInt8) :=
  if text.toList.all (·.toNat < 0x80) then orMalformed (Text.Base64.decode? text.toList)
  else .error .malformed

/-- The scalar of a given kind that a text stands for. -/
def scalarOf (kind : Kind) (text : String) : Except Fault Scalar :=
  match kind with
  | .null => .ok .null
  | .bool => (boolOf text).map Scalar.bool
  | .int => (integerOf text).map Scalar.int
  | .float => (floatOf text).map Scalar.float
  | .binary => (bytesOf text).map Scalar.bytes
  | .timestamp => timeOf text
  | .str => .ok (.str text)
  | _ => .error .malformed

end TypeAlias.Data.Yaml
