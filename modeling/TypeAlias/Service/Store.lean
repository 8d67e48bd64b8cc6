import TypeAlias.Session

/-!
# Stored environments

The environments that have been handed in. Each gets an identifier of its own, which is never used
again.
-/

namespace TypeAlias.Service

/-- An environment that has been handed in, and when. -/
structure Stored where
  session : Session
  timestamp : String

/-- The identifier with a given number, twelve digits long if that is enough. -/
def Store.idOf (n : Nat) : String :=
  let digits := toString n
  String.ofList (List.replicate (12 - digits.length) '0') ++ digits

/-- The environments that have been handed in and not been deleted. -/
structure Store where
  environments : Table String Stored := ∅
  /-- How many identifiers have been given out. -/
  issued : Nat := 0
  /-- Where identifiers are drawn from, numbered from one. -/
  ids : Nat → String := Store.idOf

namespace Store

/-- The identifier that is given out next. -/
def nextId (s : Store) : String :=
  s.ids (s.issued + 1)

/-- Stores a session, and gives it an identifier. -/
def add (s : Store) (session : Session) (timestamp : String) : String × Store :=
  (s.nextId,
    { s with
      environments := s.environments.insert s.nextId { session, timestamp }
      issued := s.issued + 1 })

/-- What is stored under an identifier. -/
def get? (s : Store) (id : String) : Option Stored :=
  s.environments.get? id

/-- Replaces the session that is stored under an identifier. -/
def update (s : Store) (id : String) (session : Session) : Store :=
  { s with environments := s.environments.modify id fun e => { e with session } }

/-- Deletes what is stored under an identifier. -/
def erase (s : Store) (id : String) : Store :=
  { s with environments := s.environments.erase id }

end Store

end TypeAlias.Service
