import TypeAlias.Graph.Termination

/-!
# The trace of a search

A search that ends leaves a trace of all it did: the nodes it reached and the components it
completed. An order of the nodes is taken from it as long as no component holds a cycle.
-/

namespace TypeAlias

/-- A list up to and including the first element with a property. -/
def takeThrough {β : Type} (p : β → Bool) : List β → List β
  | [] => []
  | b :: bs => if p b then [b] else b :: takeThrough p bs

theorem mem_of_mem_takeThrough {β : Type} {p : β → Bool} {b : β} {bs : List β}
    (h : b ∈ takeThrough p bs) : b ∈ bs := by
  induction bs with
  | nil => exact h
  | cons c bs ih =>
    rw [takeThrough] at h
    split at h
    · rw [List.mem_singleton.mp h]
      exact List.mem_cons_self
    · rcases List.mem_cons.mp h with rfl | h
      · exact List.mem_cons_self
      · exact List.mem_cons_of_mem _ (ih h)

namespace Trace

variable {α : Type}

/-- The nodes reached, in order. -/
def nodes (t : Trace α) : List α :=
  t.filterMap Moment.reached?

/-- The components completed, in order. -/
def components (t : Trace α) : List (List α) :=
  t.filterMap Moment.emitted?

variable [DecidableEq α]

/-- What a client is handed who takes nodes one by one and gives up at a cycle: the single members of
the components before the first one with a cycle, and that component if there is one. -/
def deliver : Trace α → List α × Option (List α)
  | [] => ([], none)
  | m :: t =>
    match m.cycle? with
    | some c => ([], some c)
    | none =>
      let rest := deliver t
      ((m.emitted?.bind List.head?).toList ++ rest.1, rest.2)

/-- The first component with a cycle. -/
def firstCycle? (t : Trace α) : Option (List α) :=
  t.deliver.2

/-- The trace through its first component with a cycle. -/
def throughCycle (t : Trace α) : Trace α :=
  takeThrough (fun m => m.cycle?.isSome) t

/-- The single members of the components before the first one with a cycle. -/
def acyclicNodes (t : Trace α) : List α :=
  t.deliver.1

end Trace

namespace Digraph

variable {α : Type} [DecidableEq α]

/-- What a search from the nodes does, in order, if the search ends. -/
def trace? (g : Digraph α) (starts : List α) : Option (Trace α) :=
  (g.search? starts).map fun s => s.trace.reverse

end Digraph

namespace FiniteDigraph

variable {α : Type} [DecidableEq α]

/-- Searches from each of the nodes in turn, with shared bookkeeping. -/
def search (g : FiniteDigraph α) (starts : List α) (state : SearchState α := {}) : Search α :=
  (g.search? starts state).get (g.isSome_search? starts state)

/-- What a search from the nodes does, in order. -/
def trace (g : FiniteDigraph α) (starts : List α) : Trace α :=
  (g.search starts).trace.reverse

theorem search?_eq (g : FiniteDigraph α) (starts : List α) (state : SearchState α) :
    g.search? starts state = some (g.search starts state) :=
  (Option.some_get _).symm

theorem trace?_eq (g : FiniteDigraph α) (starts : List α) :
    g.trace? starts = some (g.trace starts) := by
  rw [Digraph.trace?, search?_eq]
  rfl

end FiniteDigraph

end TypeAlias
