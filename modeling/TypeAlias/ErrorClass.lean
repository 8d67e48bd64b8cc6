/-!
# Classes of errors

An error that ends a computation has a class. A handler names classes; it answers the errors of
these classes and of those below them, and every other error goes past it.
-/

namespace TypeAlias

/-- The class of an error. -/
inductive ErrorClass where
  /-- The operating system refuses something. -/
  | system
  /-- A value is not one that can be used. -/
  | value
  /-- Bytes are no text. -/
  | decoding
  /-- A text cannot be written as bytes. -/
  | encoding
  | jsonSyntax
  | yamlSyntax
  /-- Data are not what a schema asks for. -/
  | validation
  | missingKey
  | index
  | attribute
  | type
  | overflow
  | recursion
  /-- Something is wrong with definitions or with what is asked about them. -/
  | program
  /-- A definitions document cannot be loaded. -/
  | definitions
  | duplicateDeclaration
  | unknownEntity
  | cyclicDependency
  deriving DecidableEq

namespace ErrorClass

/-- The class right above a class. -/
def above : ErrorClass → Option ErrorClass
  | decoding | encoding | jsonSyntax | validation => some value
  | definitions | duplicateDeclaration | unknownEntity | cyclicDependency => some program
  | _ => none

/-- Whether the errors of a class are among those of another one. -/
def isA (c d : ErrorClass) : Bool :=
  c = d || c.above = some d

end ErrorClass

end TypeAlias
