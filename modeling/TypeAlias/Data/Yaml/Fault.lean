import TypeAlias.Data.Calendar
import TypeAlias.ErrorClass
import TypeAlias.Text.Integer
import TypeAlias.Text.Quoted

/-!
# Faults of YAML texts

Most texts that cannot be read are malformed. Some are well formed, but hold a scalar that claims to
be of a type and does not stand for a value of it.
-/

namespace TypeAlias.Data.Yaml

/-- Why a text cannot be read. -/
inductive Fault where
  | malformed
  /-- An escape stands for no character. -/
  | notCharacter (code : Nat)
  /-- A word, in lower case, is no truth value. -/
  | notBool (word : String)
  /-- A number has no digits. -/
  | emptyNumber
  /-- A text is no integer to a base. -/
  | notInteger (base : Nat) (text : String)
  /-- An integer has more digits than are read. -/
  | tooManyDigits (count : Nat)
  /-- A text is no number with a point. -/
  | notFloat (text : String)
  /-- A text is no time. -/
  | notTimestamp
  /-- A mapping stands in the place of a time. -/
  | mappingAsTimestamp
  /-- A time does not exist. -/
  | calendar (fault : CalendarFault)
  deriving DecidableEq

namespace Fault

/-- The greatest number that can be asked for as the code of a character. -/
def greatestCode : Nat :=
  0x7fffffff

/-- The greatest length of a text that is quoted in full as no integer. -/
def mostQuoted : Nat :=
  200

/-- What is said of a fault. -/
def message : Fault → String
  | malformed => "the text is not YAML"
  | notCharacter code =>
    if code ≤ greatestCode then "chr() arg not in range(0x110000)"
    else "Python int too large to convert to C int"
  | notBool word => Text.quoted word
  | emptyNumber => "string index out of range"
  | notInteger base text =>
    "invalid literal for int() with base " ++ toString base ++ ": " ++
      String.ofList ((Text.quoted text).toList.take mostQuoted)
  | tooManyDigits count => Text.tooManyDigitsMessage count
  | notFloat text => "could not convert string to float: " ++ Text.quoted text
  | notTimestamp => "'NoneType' object has no attribute 'groupdict'"
  | mappingAsTimestamp => "expected string or bytes-like object, got 'list'"
  | calendar fault => fault.message

/-- The class of the error that a fault raises. -/
def errorClass : Fault → ErrorClass
  | malformed => .yamlSyntax
  | notCharacter code => if code ≤ greatestCode then .value else .overflow
  | notBool _ => .missingKey
  | emptyNumber => .index
  | notTimestamp => .attribute
  | mappingAsTimestamp => .type
  | notInteger .. | tooManyDigits _ | notFloat _ | calendar _ => .value

/-- The fault of a text that is no integer to a base. -/
def ofInteger (base : Nat) (text : List Char) : Text.IntegerFault → Fault
  | .malformed => notInteger base (String.ofList text)
  | .tooManyDigits count => tooManyDigits count

end Fault

/-- What an optional step gives; where it gives nothing, the text is malformed. -/
def orMalformed {α : Type} : Option α → Except Fault α
  | some a => .ok a
  | none => .error .malformed

end TypeAlias.Data.Yaml
