import TypeAlias.CommandLine.Arguments
import TypeAlias.Files.Tree
import TypeAlias.Text.Integer
import TypeAlias.Text.Quoted

/-!
# Commands

What can be asked for on the command line, and what is said when it is asked for in the wrong way.
Of several mistakes the first one counts: first how options are written, then the values of the
options in the order in which they are given, then the operands, then those that are too many.
-/

namespace TypeAlias.CommandLine

open Files

/-- The names of the commands. -/
inductive CommandName where
  | check
  | deps
  | order
  | components
  | serve
  deriving DecidableEq

namespace CommandName

/-- All commands. -/
def all : List CommandName :=
  [check, deps, order, components, serve]

/-- The written form of a name. -/
def text : CommandName → String
  | check => "check"
  | deps => "deps"
  | order => "order"
  | components => "components"
  | serve => "serve"

/-- The command with a given name. -/
def ofText? (text : String) : Option CommandName :=
  all.find? fun c => c.text = text

end CommandName

/-- A command with everything that it needs to know. -/
inductive Command where
  /-- Reports on the aliases in a file. -/
  | check (file : String) (guarded eager json : Bool)
  /-- Shows the dependencies of one alias. -/
  | deps (file name : String) (guarded : Bool)
  /-- Prints the aliases in order. -/
  | order (file : String) (guarded : Bool)
  /-- Prints the components of the graph of aliases. -/
  | components (file : String) (guarded : Bool)
  /-- Offers the service at a host and a port. -/
  | serve (host : String) (port : Int)
  deriving DecidableEq

/-- What is asked for on the command line. -/
inductive Request where
  | version
  /-- Asks how to use the program or a command. -/
  | help (command : Option CommandName)
  | run (verbose : Bool) (command : Command)
  deriving DecidableEq

/-! ## Mistakes -/

/-- What is wrong with the arguments. -/
inductive Mistake where
  | argument (e : ArgumentError)
  | operandMissing (operand : String)
  | tooManyOperands (operands : List String)
  | commandMissing
  | unknownCommand (name : String)
  | fileAbsent (operand path : String)
  | fileIsDirectory (operand path : String)
  | fileLocked (operand path : String)
  | notInteger (spellings : List String) (text : String)
  deriving DecidableEq

/-- The question whether one of some words was meant. -/
def suggestion (words : List String) : String :=
  match words with
  | [] => ""
  | [word] => " Did you mean " ++ Text.quoted word ++ "?"
  | words => " (Did you mean one of: " ++ ", ".intercalate (words.map Text.quoted) ++ "?)"

/-- What is said of a mistake. -/
def Mistake.message : Mistake → String
  | argument (.unknown s similar) =>
    "No such option " ++ Text.quoted s ++ "." ++ suggestion similar
  | argument (.valueMissing s) => "Option " ++ Text.quoted s ++ " requires an argument."
  | argument (.valueUnwanted s) => "Option " ++ Text.quoted s ++ " does not take a value."
  | operandMissing o => "Missing argument '" ++ o ++ "'."
  | tooManyOperands os =>
    "Got unexpected extra argument" ++ (if os.length = 1 then "" else "s") ++ " (" ++
      " ".intercalate os ++ ")"
  | commandMissing => "Missing command."
  | unknownCommand name =>
    "No such command " ++ Text.quoted name ++ "." ++
      suggestion (Text.similarWords name (CommandName.all.map CommandName.text))
  | fileAbsent o path =>
    "Invalid value for '" ++ o ++ "': File " ++ Text.quoted path ++ " does not exist."
  | fileIsDirectory o path =>
    "Invalid value for '" ++ o ++ "': File " ++ Text.quoted path ++ " is a directory."
  | fileLocked o path =>
    "Invalid value for '" ++ o ++ "': File " ++ Text.quoted path ++ " is not readable."
  | notInteger spellings text =>
    "Invalid value for " ++ " / ".intercalate (spellings.map fun s => "'" ++ s ++ "'") ++ ": " ++
      Text.quoted text ++ " is not a valid integer."

/-- A mistake and the command whose arguments have it. -/
structure UsageError where
  command : Option CommandName
  mistake : Mistake
  deriving DecidableEq

/-- The operands of a command. -/
def CommandName.operands : CommandName → List String
  | check | order | components => ["DEFINITIONS"]
  | deps => ["DEFINITIONS", "NAME"]
  | serve => []

/-- The line that shows how to use the program or a command. -/
def usageLine (command : Option CommandName) : String :=
  match command with
  | none => "Usage: cli [OPTIONS] COMMAND [ARGS]...\n"
  | some c => "Usage: cli " ++ " ".intercalate (c.text :: "[OPTIONS]" :: c.operands) ++ "\n"

/-- The program or a command, as it is called. -/
def calledAs (command : Option CommandName) : String :=
  " ".intercalate ("cli" :: (command.map CommandName.text).toList)

/-- Whether it is also said how the program is used. Where a value is missing or unwanted it is
not. -/
def Mistake.showsUsage : Mistake → Bool
  | argument (.valueMissing _) | argument (.valueUnwanted _) => false
  | _ => true

/-- What is said of wrong arguments. -/
def UsageError.message (e : UsageError) : String :=
  (if e.mistake.showsUsage then
    usageLine e.command ++ "Try '" ++ calledAs e.command ++ " --help' for help.\n\n"
  else "") ++ "Error: " ++ e.mistake.message ++ "\n"

/-! ## Reading commands -/

/-- What options ask for. -/
inductive OptionKey where
  | version
  | help
  | verbose
  | guarded
  | eager
  | lazy
  | json
  | port
  | host
  deriving DecidableEq

/-- The option that asks how to use something. -/
def helpSpec : OptionSpec OptionKey :=
  { key := .help, spellings := ["--help"] }

/-- The ways to write the option for the port. -/
def portSpellings : List String :=
  ["--port", "-p"]

/-- The options that stand before the command. -/
def globalSpecs : List (OptionSpec OptionKey) :=
  [{ key := .version, spellings := ["--version"] },
    { key := .verbose, spellings := ["--verbose", "-v"] }, helpSpec]

/-- The options of a command. -/
def CommandName.specs : CommandName → List (OptionSpec OptionKey)
  | check =>
    [{ key := .guarded, spellings := ["--guarded"] }, { key := .eager, spellings := ["--eager"] },
      { key := .lazy, spellings := ["--lazy"] }, { key := .json, spellings := ["--json"] },
      helpSpec]
  | deps | order | components => [{ key := .guarded, spellings := ["--guarded"] }, helpSpec]
  | serve =>
    [{ key := .port, spellings := portSpellings, takesValue := true },
      { key := .host, spellings := ["--host"], takesValue := true }, helpSpec]

/-- The file that an operand names; it must exist and be open to reading. A name that nothing can
have is not looked for. -/
def fileOperand (lookup : String → FileState) (path : String) : Except Mistake String :=
  match lookup path with
  | .absent | .tooLong => .error (.fileAbsent "DEFINITIONS" path)
  | .directory => .error (.fileIsDirectory "DEFINITIONS" path)
  | .locked => .error (.fileLocked "DEFINITIONS" path)
  | .file _ | .unnameable => .ok path

/-- The command with operands that are not too many. -/
def commandOnly (c : Command) (rest : List String) : Except Mistake Command :=
  if rest.isEmpty then .ok c else .error (.tooManyOperands rest)

/-- The command about one file that arguments ask for. -/
def fileCommand (lookup : String → FileState) (operands : List String) (c : String → Command) :
    Except Mistake Command :=
  match operands with
  | [] => .error (.operandMissing "DEFINITIONS")
  | path :: rest => do commandOnly (c (← fileOperand lookup path)) rest

/-- The command that arguments ask for. -/
def Command.ofArguments (lookup : String → FileState) (name : CommandName)
    (a : Arguments OptionKey) : Except Mistake Command :=
  let guarded := a.has .guarded
  match name with
  | .check =>
    let eager := (a.options.reverse.find? fun o => o.1 ∈ [.eager, .lazy]).all (·.1 = .eager)
    fileCommand lookup a.operands fun file => .check file guarded eager (a.has .json)
  | .order => fileCommand lookup a.operands fun file => .order file guarded
  | .components => fileCommand lookup a.operands fun file => .components file guarded
  | .deps =>
    match a.operands with
    | [] => .error (.operandMissing "DEFINITIONS")
    | path :: others => do
      let file ← fileOperand lookup path
      match others with
      | [] => .error (.operandMissing "NAME")
      | name :: rest => commandOnly (.deps file name guarded) rest
  | .serve => do
    let port ←
      match a.value? .port with
      | none => pure 8430
      | some text =>
        match Text.integer 10 text.toList with
        | .error _ => throw (.notInteger portSpellings text)
        | .ok port => pure port
    commandOnly (.serve ((a.value? .host).getD "127.0.0.1") port) a.operands

/-- Reads the arguments of a command. -/
def Command.read (lookup : String → FileState) (name : CommandName) (arguments : List String) :
    Except Mistake (Option Command) := do
  let a ← (Arguments.read .anywhere name.specs arguments).mapError Mistake.argument
  if a.has .help then return none else return some (← Command.ofArguments lookup name a)

/-- The options before the command: a request that needs no command, or whether the program is to be
verbose, and the arguments that follow. -/
def readGlobal (arguments : List String) : Except Mistake (Request ⊕ Bool × List String) := do
  let a ← (Arguments.read .leading globalSpecs arguments).mapError Mistake.argument
  match a.options.find? fun o => o.1 ∈ [.version, .help] with
  | some (.version, _) => return .inl .version
  | some _ => return .inl (.help none)
  | none => return .inr (a.has .verbose, a.operands)

/-- What the program is asked for. A word in the place of a command that is none may still be an
option. -/
def Request.read (lookup : String → FileState) (arguments : List String) :
    Except UsageError Request := do
  match ← (readGlobal arguments).mapError (UsageError.mk none) with
  | .inl request => return request
  | .inr (_, []) => throw ⟨none, .commandMissing⟩
  | .inr (verbose, word :: rest) =>
    match CommandName.ofText? word with
    | some name =>
      match ← (Command.read lookup name rest).mapError (UsageError.mk (some name)) with
      | none => return .help (some name)
      | some command => return .run verbose command
    | none =>
      match ← (readGlobal (word :: rest)).mapError (UsageError.mk none) with
      | .inl request => return request
      | .inr _ => throw ⟨none, .unknownCommand word⟩

end TypeAlias.CommandLine
