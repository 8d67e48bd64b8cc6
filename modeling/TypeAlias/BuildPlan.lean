import TypeAlias.Graph.Order

/-!
# Build plans

A plan lists targets and the inputs each is built from. An input that is no target itself is a leaf.
The plan orders everything mentioned, inputs first, and tells which targets are out of date after a
change.
-/

namespace TypeAlias

/-- Everything mentioned in a plan, with its inputs, in order of first mention. -/
structure BuildPlan where
  inputs : Table String (List String) := ∅

namespace BuildPlan

/-- Mentions a name. -/
def mention (t : Table String (List String)) (name : String) : Table String (List String) :=
  if t.contains name then t else t.insert name []

/-- Adds one input of a target. -/
def addInput (target : String) (t : Table String (List String)) (input : String) :
    Table String (List String) :=
  mention (t.modify target fun old => if input ∈ old then old else old ++ [input]) input

/-- Adds inputs of a target; those it has already do not count. -/
def add (p : BuildPlan) (target : String) (inputs : List String := []) : BuildPlan :=
  ⟨inputs.foldl (addInput target) (mention p.inputs target)⟩

/-- The inputs of a name. -/
def inputsOf (p : BuildPlan) (name : String) : List String :=
  (p.inputs.get? name).getD []

/-- The graph in which a target leads to its inputs. -/
def graph (p : BuildPlan) : FiniteDigraph String :=
  .ofTable p.inputs

/-- The components of the plan, inputs first. -/
def components (p : BuildPlan) : List (List String) :=
  p.graph.components p.inputs.keys

/-- Everything mentioned, inputs first. -/
def buildOrder (p : BuildPlan) : Except (CyclicDependency String) (List String) :=
  p.graph.order p.inputs.keys

/-- Whether a component is a dependency loop. -/
def isLoop (p : BuildPlan) : List String → Bool
  | [] => false
  | [x] => x ∈ p.inputsOf x
  | _ => true

/-- The dependency loops of the plan. -/
def cycles (p : BuildPlan) : List (List String) :=
  p.components.filter p.isLoop

/-- Notes that a target uses an input. -/
def addDependent (target : String) (t : Table String (List String)) (input : String) :
    Table String (List String) :=
  t.insert input ((t.get? input).getD [] ++ [target])

/-- For each input the targets that use it. -/
def dependents (p : BuildPlan) : Table String (List String) :=
  p.inputs.entries.foldl (fun t e => e.2.foldl (addDependent e.1) t) ∅

/-- What is reached from the changed names by going from inputs to targets. Each name is searched
from on its own. -/
def affected (p : BuildPlan) (changed : List String) : List String :=
  changed.eraseDups.flatMap fun name =>
    ((FiniteDigraph.ofTable p.dependents).componentsFrom name).flatten

/-- The targets to rebuild after a change, in build order. -/
def staleTargets (p : BuildPlan) (changed : List String) :
    Except (CyclicDependency String) (List String) :=
  p.buildOrder.map fun order =>
    let affected := p.affected changed
    order.filter fun name => name ∈ affected && !(p.inputsOf name).isEmpty

end BuildPlan

end TypeAlias
