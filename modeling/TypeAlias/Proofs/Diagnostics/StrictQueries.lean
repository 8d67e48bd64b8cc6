import TypeAlias.Proofs.Dependencies.StrictAccess
import TypeAlias.Proofs.Diagnostics.Circularity

/-!
# Diagnostics with strict access

With strict access a query fails when it looks up what is not there, writes what is there already or
takes an element from nothing. Queries with strict access are put together as those without.
-/

namespace TypeAlias

open Dependencies

/-- Why a query with strict access has no answer. -/
inductive Failure where
  | fault (f : Fault TypeName)
  | query (e : QueryError)

/-- A query with strict access. -/
abbrev StrictQuery (α : Type) := ExceptT Failure (StateM Dependencies) α

namespace StrictQuery

variable {α : Type}

/-- Runs a query with strict access. -/
def answer (q : StrictQuery α) (d : Dependencies) : Except Failure α × Dependencies :=
  q.run.run d

/-- A query in which nothing is looked up that might not be there. -/
def ofQuery (q : Query α) : StrictQuery α :=
  ExceptT.mk fun d => ((q.answer d).1.mapError .query, (q.answer d).2)

/-- The query that reads or closes an alias with strict access. -/
def ofAccess
    (f : Dependencies → Except (Fault TypeName) (Except LookupError α × Dependencies)) :
    StrictQuery α :=
  ExceptT.mk fun d =>
    match f d with
    | .error e => (.error (.fault e), d)
    | .ok (r, d) => (r.mapError fun e => .query (.lookup e), d)

theorem answer_ofAccess
    {f : Dependencies → Except (Fault TypeName) (Except LookupError α × Dependencies)}
    {d : Dependencies} {r : Except LookupError α × Dependencies} (h : f d = .ok r) :
    (ofAccess f).answer d = (r.1.mapError fun e => .query (.lookup e), r.2) := by
  show (match f d with
    | .error e => (Except.error (Failure.fault e), d)
    | .ok (r, d) => (r.mapError fun e => .query (.lookup e), d)) = _
  rw [h]

/-- The query that something is computed in with strict access. -/
def check (r : Except (Fault TypeName) α) : StrictQuery α :=
  match r with
  | .error e => throw (.fault e)
  | .ok a => pure a

/-- The direct dependencies of the alias with a given canonical name. -/
def directOf (env : Environment) (name : TypeName) : StrictQuery (List TypeName) :=
  ofAccess fun d => d.readDirectStrict env name

/-- Everything the alias with a given canonical name depends on. -/
def reachedOf (env : Environment) (name : TypeName) : StrictQuery (Table TypeName Bool) :=
  ofAccess fun d => d.readReachedStrict env name

/-- The canonical name of a written one. -/
def canonical (env : Environment) (name : TypeName) : StrictQuery TypeName :=
  ofQuery (Query.canonical env name)

/-- Whether an alias depends on itself. -/
def isCircular (env : Environment) (name : TypeName) : StrictQuery Bool := do
  let name ← canonical env name
  return (← reachedOf env name).contains name

/-- The direct dependencies of an alias. -/
def directDependencies (env : Environment) (name : TypeName) : StrictQuery (List TypeName) := do
  directOf env (← canonical env name)

/-- Everything an alias depends on, with whether it depends on the alias in turn. -/
def transitiveDependencies (env : Environment) (name : TypeName) :
    StrictQuery (Table TypeName Bool) := do
  reachedOf env (← canonical env name)

/-- Everything an alias depends on. -/
def dependencies (env : Environment) (name : TypeName) : StrictQuery (List TypeName) := do
  return (← transitiveDependencies env name).keys

/-- The members of the cycle through an alias. An alias that is not circular has none. -/
def cycle (env : Environment) (name : TypeName) : StrictQuery (List TypeName) := do
  let name ← canonical env name
  let _ ← reachedOf env name
  return ((← get).cycles.get? name).getD []

/-- The references in the definition of an alias that stand for no declared alias. -/
def danglingReferences (env : Environment) (name : TypeName) : StrictQuery (List TypeName) := do
  let name ← canonical env name
  let _ ← directOf env name
  check ((← get).dangling.fetch name)

/-- Reads all definitions. -/
def readAll (env : Environment) : StrictQuery Unit :=
  env.aliasNames.forM fun name => discard (directOf env name)

/-- Reads all definitions and closes all aliases. -/
def closeAll (env : Environment) : StrictQuery Unit := do
  readAll env
  env.aliasNames.forM fun name => discard (reachedOf env name)
  let d ← get
  ofQuery (Query.tell (.closed d.reached.size d.walks d.cycles.size))

/-- Takes part in one moment of a search through all aliases. -/
def attend (env : Environment) (m : Moment TypeName) : StrictQuery Unit :=
  match m.event with
  | .reached name => discard (directDependencies env name)
  | .emitted component => ofQuery (Query.tell (.component component))

/-- The components of the graph of all aliases, dependencies first. -/
def components (env : Environment) : StrictQuery (List (List TypeName)) := do
  let trace ← check (((← get).graph env).traceAllStrict env.aliasNames)
  trace.forM (attend env)
  return trace.components

/-- The aliases, each after those it refers to. -/
def order (env : Environment) : StrictQuery (List TypeName) := do
  let trace ← check (((← get).graph env).traceAllStrict env.aliasNames)
  trace.throughCycle.forM (attend env)
  match ← check trace.orderStrict with
  | .ok names => return names
  | .error e =>
    ofQuery (Query.tell (.orderBlocked e.members))
    throw (.query (.cyclic e))

/-- The cycle that a component is, if it is one. -/
def cycleOfComponent (env : Environment) (component : List TypeName) :
    StrictQuery (Option AliasCycle) :=
  match component with
  | [] => throw (.fault .empty)
  | head :: rest => do
    let direct ← directDependencies env head
    return if rest.isEmpty && !direct.contains head then none else some ⟨component⟩

/-- The cycles among the aliases. -/
def cycles (env : Environment) : StrictQuery (List AliasCycle) := do
  (← components env).filterMapM (cycleOfComponent env)

/-- The dangling references of all aliases. -/
def dangling (env : Environment) : StrictQuery (List DanglingReference) := do
  let found ← env.aliasNames.mapM fun name => do
    return (← danglingReferences env name).map fun ref => ⟨name, ref⟩
  return found.flatten

/-- The aliases that are circular. -/
def circular (env : Environment) : StrictQuery (List TypeName) :=
  env.aliasNames.filterM (isCircular env)

/-- Everything there is to say. -/
def summary (env : Environment) : StrictQuery Summary := do
  let circular ← circular env
  let cycles ← cycles env
  let dangling ← dangling env
  return { aliases := env.size, circular, cycles, dangling }

end StrictQuery

/-- Reads a given name. -/
def GivenName.readStrict (x : GivenName) : StrictQuery TypeName :=
  .ofQuery x.read

/-- Asks a question with strict access, for the sake of what is known afterwards. -/
def Question.askStrict (env : Environment) : Question → StrictQuery Unit
  | isCircular x => do discard (StrictQuery.isCircular env (← x.readStrict))
  | directDependencies x => do discard (StrictQuery.directDependencies env (← x.readStrict))
  | dependencies x => do discard (StrictQuery.dependencies env (← x.readStrict))
  | transitiveDependencies x => do
    discard (StrictQuery.transitiveDependencies env (← x.readStrict))
  | cycle x => do discard (StrictQuery.cycle env (← x.readStrict))
  | danglingReferences x => do discard (StrictQuery.danglingReferences env (← x.readStrict))
  | readAll => StrictQuery.readAll env
  | closeAll => StrictQuery.closeAll env

namespace Inquiry

/-- Asks with strict access, for the sake of what is known afterwards. -/
def askStrict (env : Environment) : Inquiry → StrictQuery Unit
  | one q => q.askStrict env
  | components => discard (StrictQuery.components env)
  | order => discard (StrictQuery.order env)
  | cycles => discard (StrictQuery.cycles env)
  | dangling => discard (StrictQuery.dangling env)
  | circular => discard (StrictQuery.circular env)
  | summary => discard (StrictQuery.summary env)

/-- What is known after some inquiries with strict access, with or without answers. -/
def askAllStrict (env : Environment) (history : List Inquiry) (d : Dependencies) : Dependencies :=
  history.foldl (fun d i => ((i.askStrict env).answer d).2) d

end Inquiry

end TypeAlias
