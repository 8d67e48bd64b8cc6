import TypeAlias.Dependencies.Basic

/-!
# Queries about dependencies

A query takes a name in any written form, relative to the top level.
-/

namespace TypeAlias

/-- Why a query has no answer. -/
inductive QueryError where
  /-- The text is no name. -/
  | malformed (text : String)
  /-- The name stands for no declared alias. -/
  | lookup (e : LookupError)
  /-- There is no order. -/
  | cyclic (e : CyclicDependency TypeName)
  deriving DecidableEq

/-- What is said of a query without an answer. -/
def QueryError.message : QueryError → String
  | malformed text => TypeName.malformedMessage text
  | lookup e => e.message
  | cyclic e => e.message TypeName.toString

/-- The class of the error. -/
def QueryError.errorClass : QueryError → ErrorClass
  | malformed _ => .value
  | lookup _ => .unknownEntity
  | cyclic _ => .cyclicDependency

/-- A computation that may extend what is known, and keeps what it has learnt when it fails. -/
abbrev Query (α : Type) := ExceptT QueryError (StateM Dependencies) α

namespace Query

/-- Runs a query. -/
def answer {α : Type} (q : Query α) (d : Dependencies) : Except QueryError α × Dependencies :=
  q.run.run d

/-- The query that looks something up. -/
def ofLookup {α : Type} (f : Dependencies → Except LookupError α × Dependencies) : Query α :=
  ExceptT.mk fun d => ((f d).1.mapError QueryError.lookup, (f d).2)

/-- Reports something. -/
def tell (n : Notice) : Query Unit :=
  modify fun d => d.tell n

/-- Reads a name. -/
def name (text : String) : Query TypeName :=
  match TypeName.parse? text with
  | none => throw (.malformed text)
  | some n => pure n

/-- The canonical name of a written one. -/
def canonical (env : Environment) (name : TypeName) : Query TypeName :=
  ofLookup fun d => (env.normalize name, d)

/-- The direct dependencies of the alias with a given canonical name. -/
def directOf (env : Environment) (name : TypeName) : Query (List TypeName) :=
  ofLookup fun d => d.readDirect env name

/-- Everything the alias with a given canonical name depends on. -/
def reachedOf (env : Environment) (name : TypeName) : Query (Table TypeName Bool) :=
  ofLookup fun d => d.readReached env name

/-- Whether an alias depends on itself. -/
def isCircular (env : Environment) (name : TypeName) : Query Bool := do
  let name ← canonical env name
  return (← reachedOf env name).contains name

/-- The direct dependencies of an alias. -/
def directDependencies (env : Environment) (name : TypeName) : Query (List TypeName) := do
  directOf env (← canonical env name)

/-- Everything an alias depends on, with whether it depends on the alias in turn. -/
def transitiveDependencies (env : Environment) (name : TypeName) :
    Query (Table TypeName Bool) := do
  reachedOf env (← canonical env name)

/-- Everything an alias depends on. -/
def dependencies (env : Environment) (name : TypeName) : Query (List TypeName) := do
  return (← transitiveDependencies env name).keys

/-- The members of the cycle through an alias; none if it is not circular. -/
def cycle (env : Environment) (name : TypeName) : Query (List TypeName) := do
  let name ← canonical env name
  let _ ← reachedOf env name
  return ((← get).cycles.get? name).getD []

/-- The references in the definition of an alias that stand for no declared alias. -/
def danglingReferences (env : Environment) (name : TypeName) : Query (List TypeName) := do
  let name ← canonical env name
  let _ ← directOf env name
  return ((← get).dangling.get? name).getD []

/-- Reads all definitions. -/
def readAll (env : Environment) : Query Unit :=
  env.aliasNames.forM fun name => discard (directOf env name)

/-- Reads all definitions and closes all aliases. -/
def closeAll (env : Environment) : Query Unit := do
  readAll env
  env.aliasNames.forM fun name => discard (reachedOf env name)
  let d ← get
  tell (.closed d.reached.size d.walks d.cycles.size)

end Query

end TypeAlias
