import TypeAlias.Session

/-!
# Analyses

An analysis loads definitions, closes all aliases if it is eager, and diagnoses the environment. It
tells how far it has come, up to the point where it fails if it does. Unless it is strict, it does
not fail for lack of an order.
-/

namespace TypeAlias

open Definitions Files

/-- The stages of an analysis. -/
inductive Stage where
  | loading
  | closing
  | diagnosing
  deriving DecidableEq

/-- What a stage is called. -/
def Stage.title : Stage → String
  | loading => "Loading"
  | closing => "Closing"
  | diagnosing => "Diagnosing"

/-- How far a stage has come. -/
structure Progress where
  stage : Stage
  current : Nat
  total : Nat
  deriving DecidableEq

/-- How to run an analysis. -/
structure AnalysisOptions where
  location : Location := .ofText "aliases.yaml"
  /-- Whether a recursion below a guarding expression does not count. -/
  guarded : Bool := false
  /-- Whether all aliases are closed before the diagnosis. -/
  eager : Bool := true
  /-- Whether a cycle makes the analysis fail. -/
  strict : Bool := false

/-- What an analysis finds. -/
structure Report extends Summary where
  /-- The aliases, each after those it refers to, if that is possible. -/
  order : Option (List TypeName)
  deriving DecidableEq

/-- Whether there are cycles. -/
def Report.hasCycles (r : Report) : Bool :=
  !r.cycles.isEmpty

/-- Why an analysis fails. -/
inductive AnalysisError where
  | load (e : LoadError)
  | query (e : QueryError)
  deriving DecidableEq

/-- What is said of an analysis that fails. -/
def AnalysisError.message : AnalysisError → String
  | load e => e.message
  | query e => e.message

/-- The class of the error. -/
def AnalysisError.errorClass : AnalysisError → ErrorClass
  | load e => e.errorClass
  | query e => e.errorClass

/-- An analysis on its way. -/
structure AnalysisState where
  progress : List Progress := []
  session : Session := {}

/-- A part of an analysis. -/
abbrev Analysis (α : Type) := ExceptT AnalysisError (StateM AnalysisState) α

namespace Analysis

/-- Tells how far a stage has come. -/
def advance (stage : Stage) (current total : Nat) : Analysis Unit :=
  modify fun s => { s with progress := s.progress ++ [⟨stage, current, total⟩] }

/-- Loads definitions. -/
def load (o : AnalysisOptions) (state : FileState) : Analysis Unit :=
  match Session.ofFile o.guarded o.location state with
  | .error e => throw (.load e)
  | .ok session => modify fun s => { s with session }

/-- Puts a question to the session. -/
def ask {α : Type} (question : Environment → Query α) : Analysis α := do
  let s ← get
  let (answer, session) := s.session.ask question
  set { s with session }
  match answer with
  | .error e => throw (.query e)
  | .ok a => return a

/-- The order of the aliases; none if there is none and that may be. -/
def order (strict : Bool) (cycles : Nat) : Analysis (Option (List TypeName)) :=
  tryCatch (some <$> ask Query.order) fun e => do
    match e, strict with
    | .query (.cyclic _), false =>
      ask fun _ => Query.tell (.noOrder cycles)
      return none
    | e, _ => throw e

/-- Runs an analysis on the definitions in a file. -/
def report (o : AnalysisOptions) (state : FileState) : Analysis Report := do
  advance .loading 0 1
  load o state
  advance .loading 1 1
  if o.eager then
    advance .closing 0 1
    ask Query.closeAll
    advance .closing 1 1
  let total := (← get).session.env.size
  advance .diagnosing 0 total
  let summary ← ask Query.summary
  advance .diagnosing total total
  let order ← order o.strict summary.cycles.length
  ask fun _ =>
    Query.tell (.analyzed summary.aliases summary.circular.length summary.dangling.length)
  return { summary with order }

/-- The outcome of an analysis, and how it went. -/
def outcome {α : Type} (a : Analysis α) : Except AnalysisError α × AnalysisState :=
  a.run.run {}

end Analysis

end TypeAlias
