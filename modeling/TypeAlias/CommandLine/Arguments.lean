import TypeAlias.Text.Similarity

/-!
# Arguments

The arguments of a command are options and operands. A long option is a word, and a value may be
attached to it with `=`; short options are single letters behind one dash, and the rest of the word
is the value of one that takes a value. Otherwise the value is the argument that follows. After `--`
there are only operands.
-/

namespace TypeAlias.CommandLine

/-- Whether options may stand behind the first operand. -/
inductive Placement where
  | anywhere
  | leading
  deriving DecidableEq

/-- An option that a command knows. -/
structure OptionSpec (κ : Type) where
  key : κ
  /-- The ways to write the option, with their dashes. -/
  spellings : List String
  takesValue : Bool := false

/-- What is wrong with the way options are written. -/
inductive ArgumentError where
  /-- There is no such option; there may be others with a similar spelling. -/
  | unknown (spelling : String) (similar : List String)
  | valueMissing (spelling : String)
  | valueUnwanted (spelling : String)
  deriving DecidableEq

/-- Arguments that have been read: the options as they were given, with their values if they take
one, and the operands. -/
structure Arguments (κ : Type) where
  options : List (κ × String) := []
  operands : List String := []

namespace Arguments

variable {κ : Type}

/-- The option with a given spelling. -/
def spec? (specs : List (OptionSpec κ)) (spelling : String) : Option (OptionSpec κ) :=
  specs.find? fun s => s.spellings.contains spelling

/-- Adds options in front. -/
def withOptions (given : List (κ × String)) (a : Arguments κ) : Arguments κ :=
  { a with options := given ++ a.options }

/-- Adds an operand in front. -/
def withOperand (operand : String) (a : Arguments κ) : Arguments κ :=
  { a with operands := operand :: a.operands }

/-- A word of short options: those that are complete, and the spelling and key of one at the end
that still needs a value. -/
def readShort (specs : List (OptionSpec κ)) :
    List Char → Except ArgumentError (List (κ × String) × Option (String × κ))
  | [] => .ok ([], none)
  | c :: rest =>
    let spelling := String.ofList ['-', c]
    match spec? specs spelling with
    | none => .error (.unknown spelling [])
    | some s =>
      if s.takesValue then
        if rest.isEmpty then .ok ([], some (spelling, s.key))
        else .ok ([(s.key, String.ofList rest)], none)
      else (readShort specs rest).map fun r => ((s.key, "") :: r.1, r.2)

/-- Whether an option is spelled with a word. -/
def isLong (spelling : String) : Bool :=
  spelling.length ≠ 2

/-- The mistake of a word that spells no option. -/
def unknownWord (specs : List (OptionSpec κ)) (spelling : String) : ArgumentError :=
  .unknown spelling (Text.similarWords spelling ((specs.flatMap (·.spellings)).filter isLong))

/-- A word that starts with a dash: the options that are complete, and the spelling and key of one
that still needs a value. -/
def readWord (specs : List (OptionSpec κ)) (word : List Char) :
    Except ArgumentError (List (κ × String) × Option (String × κ)) :=
  let spelling := String.ofList (word.takeWhile (· ≠ '='))
  let long? := (spec? specs spelling).filter fun _ => isLong spelling
  match long?, word.dropWhile (· ≠ '='), word with
  | some s, [], _ =>
    if s.takesValue then .ok ([], some (spelling, s.key)) else .ok ([(s.key, "")], none)
  | some s, _ :: value, _ =>
    if s.takesValue then .ok ([(s.key, String.ofList value)], none)
    else .error (.valueUnwanted spelling)
  | none, _, _ :: c :: rest =>
    if c = '-' then .error (unknownWord specs spelling) else readShort specs (c :: rest)
  | none, _, _ => .error (unknownWord specs spelling)

/-- Reads arguments. -/
def read (placement : Placement) (specs : List (OptionSpec κ)) :
    List String → Except ArgumentError (Arguments κ)
  | [] => .ok {}
  | "--" :: rest => .ok { operands := rest }
  | word :: rest =>
    match word.toList with
    | '-' :: c :: cs => do
      let (given, open?) ← readWord specs ('-' :: c :: cs)
      match open?, rest with
      | none, rest => return (← read placement specs rest).withOptions given
      | some (spelling, _), [] => throw (.valueMissing spelling)
      | some (_, key), value :: rest =>
        return (← read placement specs rest).withOptions (given ++ [(key, value)])
    | _ =>
      if placement = .leading then .ok { operands := word :: rest }
      else (read placement specs rest).map (withOperand word)

/-- Whether an option was given. -/
def has [BEq κ] (a : Arguments κ) (key : κ) : Bool :=
  a.options.any (·.1 == key)

/-- The last value given to an option. -/
def value? [BEq κ] (a : Arguments κ) (key : κ) : Option String :=
  a.options.reverse.lookup key

end Arguments

end TypeAlias.CommandLine
