import TypeAlias.Dependencies.Query

/-!
# Diagnostics of an environment

The components of the graph of all aliases, an order in which every alias comes after those it
refers to, the cycles, and the dangling references. Here the direct dependencies of an alias are
looked at in the order of their written names.
-/

namespace TypeAlias

/-- Names sorted by their written form. -/
def sortByText (names : List TypeName) : List TypeName :=
  names.mergeSort fun a b => decide (a.toString ≤ b.toString)

/-- Aliases that depend on each other, or one that refers to itself. -/
structure AliasCycle where
  members : List TypeName
  deriving DecidableEq

namespace AliasCycle

/-- The number of members. -/
def size (c : AliasCycle) : Nat :=
  c.members.length

/-- Whether the cycle is an alias that refers to itself. -/
def isSelfReference (c : AliasCycle) : Bool :=
  c.size == 1

end AliasCycle

/-- A reference that stands for no declared alias, and the alias that makes it. -/
structure DanglingReference where
  owner : TypeName
  reference : TypeName
  deriving DecidableEq

/-- What there is to say about the aliases of an environment. -/
structure Summary where
  aliases : Nat
  circular : List TypeName
  cycles : List AliasCycle
  dangling : List DanglingReference
  deriving DecidableEq

namespace Dependencies

/-- The graph of the direct dependencies, in the order of the written names. -/
def graph (env : Environment) (d : Dependencies) : FiniteDigraph TypeName where
  succ name :=
    match env.normalize name with
    | .ok name => sortByText (d.edges env name)
    | .error _ => []
  exists_targets := by
    refine ⟨d.targets env, fun a b h => ?_⟩
    split at h
    · exact mem_targets_of_mem_edges (List.mem_mergeSort.mp h)
    · exact absurd h List.not_mem_nil

/-- What a search from all aliases does. -/
def trace (env : Environment) (d : Dependencies) : Trace TypeName :=
  (d.graph env).trace env.aliasNames

end Dependencies

namespace Query

/-- Takes part in one moment of a search through all aliases. -/
def attend (env : Environment) (m : Moment TypeName) : Query Unit :=
  match m.event with
  | .reached name => discard (directDependencies env name)
  | .emitted component => tell (.component component)

/-- The components of the graph of all aliases, dependencies first. -/
def components (env : Environment) : Query (List (List TypeName)) := do
  let trace := (← get).trace env
  trace.forM (attend env)
  return trace.components

/-- The aliases, each after those it refers to. -/
def order (env : Environment) : Query (List TypeName) := do
  let trace := (← get).trace env
  trace.throughCycle.forM (attend env)
  match trace.order with
  | .ok names => return names
  | .error e =>
    tell (.orderBlocked e.members)
    throw (.cyclic e)

/-- The cycle that a component is, if it is one. -/
def cycleOfComponent (env : Environment) (component : List TypeName) :
    Query (Option AliasCycle) :=
  match component with
  | [] => return none
  | head :: rest => do
    let direct ← directDependencies env head
    return if rest.isEmpty && !direct.contains head then none else some ⟨component⟩

/-- The cycles among the aliases. -/
def cycles (env : Environment) : Query (List AliasCycle) := do
  (← components env).filterMapM (cycleOfComponent env)

/-- The dangling references of all aliases. -/
def dangling (env : Environment) : Query (List DanglingReference) := do
  let found ← env.aliasNames.mapM fun name => do
    return (← danglingReferences env name).map fun ref => ⟨name, ref⟩
  return found.flatten

/-- The aliases that are circular. -/
def circular (env : Environment) : Query (List TypeName) :=
  env.aliasNames.filterM (isCircular env)

/-- Everything there is to say. -/
def summary (env : Environment) : Query Summary := do
  let circular ← circular env
  let cycles ← cycles env
  let dangling ← dangling env
  return { aliases := env.size, circular, cycles, dangling }

end Query

end TypeAlias
