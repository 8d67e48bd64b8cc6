import TypeAlias.Data.Json.Reader
import TypeAlias.Data.Yaml.Document
import TypeAlias.Definitions.Validation
import TypeAlias.Files.Location
import TypeAlias.Files.Tree
import TypeAlias.Text.LineEnds

/-!
# Reading definitions files

A file with the extension `yaml` or `yml`, in any case, holds YAML, any other JSON; both are UTF-8.
Errors of the classes that are reckoned with are answered by an error of definitions, which tells
what was to be done; all others get out as they are.
-/

namespace TypeAlias.Definitions

open Data Files

/-- The format of a file. -/
inductive Format where
  | json
  | yaml
  deriving DecidableEq

/-- The format of the file at a location. -/
def Format.ofLocation (l : Location) : Format :=
  if l.lowerExtension? ∈ [some "yaml", some "yml"] then .yaml else .json

/-- What a format is called. -/
def Format.title : Format → String
  | json => "JSON"
  | yaml => "YAML"

/-- The class of the errors of texts that are not in a format. -/
def Format.syntaxClass : Format → ErrorClass
  | json => .jsonSyntax
  | yaml => .yamlSyntax

/-- Why the operating system does not give the content of a file. -/
inductive SystemError where
  | absent
  | locked
  | directory
  | tooLong
  deriving DecidableEq

namespace SystemError

/-- The number of an error. -/
def number : SystemError → Nat
  | absent => 2
  | locked => 13
  | directory => 21
  | tooLong => 36

/-- What an error is called. -/
def reason : SystemError → String
  | absent => "No such file or directory"
  | locked => "Permission denied"
  | directory => "Is a directory"
  | tooLong => "File name too long"

end SystemError

/-- Why the definitions in a file cannot be used. -/
inductive LoadError where
  /-- The operating system does not give the content of the file at a path. -/
  | system (path : String) (e : SystemError)
  /-- Nothing can have the name of the file. -/
  | unnameable
  /-- The file is not UTF-8. -/
  | notText
  | notJson (text : List Char) (failure : Json.Failure)
  | notYaml (fault : Yaml.Fault)
  /-- The file holds something other than a document. -/
  | invalid (issues : List Issue)
  /-- An error of definitions, and the error that it answers. -/
  | definitions (message : String) (cause : LoadError)
  /-- The document does not describe an environment. -/
  | registration (e : RegistrationError)
  deriving DecidableEq

namespace LoadError

/-- The class of an error. -/
def errorClass : LoadError → ErrorClass
  | system .. => .system
  | unnameable => .value
  | notText => .decoding
  | notJson _ failure => failure.fault.errorClass
  | notYaml fault => fault.errorClass
  | invalid _ => .validation
  | definitions .. => .definitions
  | registration e => e.errorClass

/-- What is said of an error. -/
def message : LoadError → String
  | system path e =>
    "[Errno " ++ toString e.number ++ "] " ++ e.reason ++ ": " ++ Text.quoted path
  | unnameable => "embedded null byte"
  | notText => "the text is not UTF-8"
  | notJson text failure => failure.message text
  | notYaml fault => fault.message
  | invalid issues => issuesMessage issues
  | definitions message _ => message
  | registration e => e.message

/-- The answer to the errors of a class: an error of definitions that says what could not be
done. -/
def answering (handled : ErrorClass) (describe : LoadError → String) (e : LoadError) : LoadError :=
  if e.errorClass.isA handled then .definitions (describe e) e else e

end LoadError

/-- The text of a file. -/
def readText (path : String) : FileState → Except LoadError (List Char)
  | .absent => .error (.system path .absent)
  | .locked => .error (.system path .locked)
  | .directory => .error (.system path .directory)
  | .tooLong => .error (.system path .tooLong)
  | .unnameable => .error .unnameable
  | .file content =>
    match String.fromUTF8? content with
    | none => .error .notText
    | some s => .ok (Text.unifyLineEnds s.toList)

/-- The data that a text stands for. -/
def readData (format : Format) (text : List Char) : Except LoadError Part :=
  match format with
  | .json => ((Json.read text).mapError (LoadError.notJson text)).map Part.ofValue
  | .yaml => (Yaml.read text).mapError LoadError.notYaml

/-- What is said of an error in the syntax of a file. Where a text is not YAML is not told. -/
def syntaxMessage (format : Format) (path : String) (e : LoadError) : String :=
  "Invalid " ++ format.title ++ " in " ++ path ++
    match format with
    | .json => ": " ++ e.message
    | .yaml => ""

/-- The document that data describe. -/
def Document.ofData (p : Part) : Except LoadError Document :=
  ((Document.ofPart p).mapError LoadError.invalid).mapError <|
    .answering .validation fun e => "Invalid definitions document: " ++ e.message

/-- Reads the document that a file holds. -/
def Document.ofFile (l : Location) (state : FileState) : Except LoadError Document := do
  let format := Format.ofLocation l
  let text ← (readText l.text state).mapError <|
    .answering .system fun e => "Cannot read " ++ l.text ++ ": " ++ e.message
  let p ← (readData format text).mapError <|
    .answering format.syntaxClass (syntaxMessage format l.text)
  Document.ofData p

end TypeAlias.Definitions
