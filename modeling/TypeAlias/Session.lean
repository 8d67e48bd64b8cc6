import TypeAlias.Definitions.Reading
import TypeAlias.Diagnostics
import TypeAlias.Registration

/-!
# Sessions

An environment and what has been learnt about its dependencies. Later questions have the use of what
earlier ones have found.
-/

namespace TypeAlias

open Definitions Files

/-- An environment under study. -/
structure Session where
  env : Environment := {}
  deps : Dependencies := {}

namespace Session

/-- Puts a question to a session. -/
def ask {α : Type} (s : Session) (question : Environment → Query α) :
    Except QueryError α × Session :=
  let (answer, deps) := (question s.env).answer s.deps
  (answer, { s with deps := deps })

/-- Registers something in the environment of a session; what has been learnt stays as it is. -/
def register (s : Session) (r : Registration) : Except RegistrationError Unit × Session :=
  let (result, env) := s.env.register r
  (result, { s with env := env })

/-- What there is to report, the earliest first. -/
def notices (s : Session) : List Notice :=
  s.deps.notices.reverse

/-- The session on the environment that a document describes. -/
def ofDocument (guarded : Bool) (d : Document) : Except RegistrationError Session :=
  d.toEnvironment.map fun env => { env, deps := { guarded } }

/-- The session on the environment that a file describes. -/
def ofFile (guarded : Bool) (l : Location) (state : FileState) : Except LoadError Session := do
  let d ← Document.ofFile l state
  let s ← (ofDocument guarded d).mapError LoadError.registration
  return { s with deps := s.deps.tell (.loaded d.aliases.length d.modules.length l.text) }

end Session

end TypeAlias
