import TypeAlias.Data.Part
import TypeAlias.TypeName

/-!
# Checked values

Checking a value finds every problem, not only the first. An issue says what is wrong, where, and
what was found there: the place is a path of member names and list positions. Checks are put
together with the operations of an applicative functor, which collect the issues of all parts in
order.
-/

namespace TypeAlias.Definitions

open Data

/-- One step of the way to a part of a value. -/
inductive Place where
  | member (name : String)
  | item (index : Int)
  deriving DecidableEq

/-- What can be wrong with a part of a value. -/
inductive Problem where
  | missing
  /-- A type is part of itself. -/
  | cyclic
  /-- Types are nested too deeply. -/
  | tooDeep
  | notString
  /-- Bytes are no text. -/
  | notUnicode
  /-- The text is no name. -/
  | notName (text : String)
  /-- The name cannot be that of an alias. -/
  | notAliasName (text : String)
  | notList
  | notMapping
  /-- A list that must not be empty is. -/
  | tooShort
  /-- Something other than an object stands where one of a given model should. -/
  | notModel (model : String)
  /-- Something other than an object stands where one should. -/
  | notObject
  /-- A type does not say of which kind it is. -/
  | noKind
  /-- A type is of an unknown kind. -/
  | unknownKind (shown : String) (known : List String)
  /-- Another text stands where a given one should. -/
  | notLiteral (expected : String)
  | notBool
  /-- A text or an integer does not stand for a truth value. -/
  | unclearBool
  | notInt
  /-- A text does not stand for an integer. -/
  | unclearInt
  /-- A number with a fraction stands where an integer should. -/
  | fractional
  /-- A number that is not finite stands where an integer should. -/
  | notFinite
  /-- A number is too large to be taken for an integer. -/
  | tooLarge
  /-- The text is not JSON. -/
  | notJson
  deriving DecidableEq

namespace Problem

/-- The code of a problem. -/
def code : Problem → String
  | missing => "missing"
  | cyclic => "recursion_loop"
  | tooDeep => "recursion_depth_exceeded"
  | notString => "string_type"
  | notUnicode => "string_unicode"
  | notName _ | notAliasName _ => "value_error"
  | notList => "list_type"
  | notMapping => "dict_type"
  | tooShort => "too_short"
  | notModel _ => "model_type"
  | notObject => "model_attributes_type"
  | noKind => "union_tag_not_found"
  | unknownKind .. => "union_tag_invalid"
  | notLiteral _ => "literal_error"
  | notBool => "bool_type"
  | unclearBool => "bool_parsing"
  | notInt => "int_type"
  | unclearInt => "int_parsing"
  | fractional => "int_from_float"
  | notFinite => "finite_number"
  | tooLarge => "int_parsing_size"
  | notJson => "json_invalid"

/-- What is said of a problem. -/
def message : Problem → String
  | missing => "Field required"
  | cyclic => "Recursion error - cyclic reference detected"
  | tooDeep => "Recursion error - maximum validation depth exceeded"
  | notString => "Input should be a valid string"
  | notUnicode =>
    "Input should be a valid string, unable to parse raw data as a unicode string"
  | notName text => "Value error, " ++ TypeName.malformedMessage text
  | notAliasName text =>
    "Value error, " ++ Text.quoted text ++
      " is not an alias name (must start with a lowercase letter)"
  | notList => "Input should be a valid list"
  | notMapping => "Input should be a valid dictionary"
  | tooShort => "List should have at least 1 item after validation, not 0"
  | notModel model => "Input should be a valid dictionary or instance of " ++ model
  | notObject => "Input should be a valid dictionary or object to extract fields from"
  | noKind => "Unable to extract tag using discriminator 'kind'"
  | unknownKind shown known =>
    "Input tag '" ++ shown ++
      "' found using 'kind' does not match any of the expected tags: " ++
      ", ".intercalate (known.map fun k => "'" ++ k ++ "'")
  | notLiteral expected => "Input should be '" ++ expected ++ "'"
  | notBool => "Input should be a valid boolean"
  | unclearBool => "Input should be a valid boolean, unable to interpret input"
  | notInt => "Input should be a valid integer"
  | unclearInt => "Input should be a valid integer, unable to parse string as an integer"
  | fractional => "Input should be a valid integer, got a number with a fractional part"
  | notFinite => "Input should be a finite number"
  | tooLarge => "Unable to parse input string as an integer, exceeded maximum size"
  | notJson => "JSON decode error"

end Problem

/-- A problem, the way to the part that has it, and what was found there. -/
structure Issue where
  place : List Place
  problem : Problem
  found : Part
  deriving DecidableEq

/-- The result of a check: a value, or everything that is wrong. -/
inductive Checked (α : Type) where
  | valid (a : α)
  | invalid (issues : List Issue)

namespace Checked

variable {α β : Type}

/-- The issues of a check. -/
def issues : Checked α → List Issue
  | valid _ => []
  | invalid is => is

/-- Applies a function to the value. -/
def map (f : α → β) : Checked α → Checked β
  | valid a => valid (f a)
  | invalid is => invalid is

/-- Applies a checked function to a checked value; the issues of both are collected. -/
def apply (f : Checked (α → β)) (a : Checked α) : Checked β :=
  match f, a with
  | valid f, valid a => valid (f a)
  | valid _, invalid is => invalid is
  | invalid is, valid _ => invalid is
  | invalid is, invalid js => invalid (is ++ js)

instance : Applicative Checked where
  pure := valid
  seq f a := f.apply (a ())
  map := map

/-- Collects checked values in order. -/
def all : List (Checked α) → Checked (List α)
  | [] => valid []
  | c :: cs => (map List.cons c).apply (all cs)

/-- The check of a part that fails with one problem. -/
def fail (found : Part) (problem : Problem) : Checked α :=
  invalid [⟨[], problem, found⟩]

/-- Puts a check of a part at its place. -/
def inPlace (place : Place) : Checked α → Checked α
  | valid a => valid a
  | invalid is => invalid (is.map fun i => { i with place := place :: i.place })

/-- Puts a check of a part at the place of a member. -/
def atMember (name : String) : Checked α → Checked α :=
  inPlace (.member name)

/-- The check as an outcome. -/
def toExcept : Checked α → Except (List Issue) α
  | valid a => .ok a
  | invalid is => .error is

end Checked

end TypeAlias.Definitions
