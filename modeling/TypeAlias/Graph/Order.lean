import TypeAlias.Graph.Trace

/-!
# Components and orders of a graph

Components come sinks first: each after the components it leads into. When no component holds a
cycle, their single members are an order in which every node comes after its successors; otherwise
the first component with a cycle is what stands in the way.
-/

namespace TypeAlias

/-- There is no order, because of a component that holds a cycle. -/
structure CyclicDependency (α : Type) where
  /-- The members in the order in which the search reached them. -/
  members : List α
  deriving DecidableEq

namespace CyclicDependency

variable {α : Type}

/-- What is said of a cyclic dependency. -/
def message (text : α → String) (e : CyclicDependency α) : String :=
  "Circular dependency: " ++ ", ".intercalate (e.members.map text)

end CyclicDependency

/-- The order of the components of a trace, or the first of them that holds a cycle. -/
def Trace.order {α : Type} [DecidableEq α] (t : Trace α) : Except (CyclicDependency α) (List α) :=
  match t.firstCycle? with
  | some c => .error ⟨c⟩
  | none => .ok t.acyclicNodes

namespace Digraph

variable {α : Type} [DecidableEq α]

/-- The strongly connected components of the nodes within reach, sinks first, if a search for them
ends. -/
def components? (g : Digraph α) (starts : List α) : Option (List (List α)) :=
  (g.trace? starts).map Trace.components

/-- The strongly connected components within reach of one node, sinks first. -/
def componentsFrom? (g : Digraph α) (start : α) : Option (List (List α)) :=
  g.components? [start]

/-- The nodes within reach, each after its successors, if a search for them ends. -/
def order? (g : Digraph α) (starts : List α) : Option (Except (CyclicDependency α) (List α)) :=
  (g.trace? starts).map Trace.order

/-- The nodes that are handed out on the way to an order, up to the first component with a cycle. -/
def delivered? (g : Digraph α) (starts : List α) : Option (List α) :=
  (g.trace? starts).map Trace.acyclicNodes

/-- The nodes within reach of one node, which comes last. -/
def orderFrom? (g : Digraph α) (start : α) : Option (Except (CyclicDependency α) (List α)) :=
  g.order? [start]

end Digraph

namespace FiniteDigraph

variable {α : Type} [DecidableEq α]

/-- The strongly connected components of the nodes within reach, sinks first. -/
def components (g : FiniteDigraph α) (starts : List α) : List (List α) :=
  (g.trace starts).components

/-- The strongly connected components within reach of one node, sinks first. -/
def componentsFrom (g : FiniteDigraph α) (start : α) : List (List α) :=
  g.components [start]

/-- The nodes within reach, each after its successors. -/
def order (g : FiniteDigraph α) (starts : List α) : Except (CyclicDependency α) (List α) :=
  (g.trace starts).order

/-- The nodes within reach of one node, which comes last. -/
def orderFrom (g : FiniteDigraph α) (start : α) : Except (CyclicDependency α) (List α) :=
  g.order [start]

end FiniteDigraph

/-- A graph of which the list of nodes or the successors may not have been given. -/
structure GraphOutline (α : Type) where
  nodes? : Option (List α) := none
  graph? : Option (FiniteDigraph α) := none

/-- Why an outline has no order. -/
inductive OutlineError (α : Type) where
  /-- A part that was needed has not been given. -/
  | notGiven
  | cyclic (e : CyclicDependency α)

namespace GraphOutline

variable {α : Type} [DecidableEq α]

/-- The components within reach of a node, if the successors have been given. -/
def componentsFrom (o : GraphOutline α) (start : α) : Except (OutlineError α) (List (List α)) :=
  match o.graph? with
  | none => .error .notGiven
  | some g => .ok (g.componentsFrom start)

/-- The order of all nodes, if they and their successors have been given. -/
def order (o : GraphOutline α) : Except (OutlineError α) (List α) :=
  match o.nodes?, o.graph? with
  | some nodes, some g => (g.order nodes).mapError .cyclic
  | some [], none => .ok []
  | _, _ => .error .notGiven

end GraphOutline

end TypeAlias
