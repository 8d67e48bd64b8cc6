import TypeAlias.Table

/-!
# Graphs given by their successors

A graph is never listed: it is a function from a node to its direct successors, in order and with
repeats allowed. A search of a graph need not end; it does when finitely many nodes are successors.
-/

namespace TypeAlias

/-- A directed graph. -/
structure Digraph (α : Type) where
  /-- The direct successors of a node. -/
  succ : α → List α

/-- A directed graph in which finitely many nodes are successors. -/
structure FiniteDigraph (α : Type) extends Digraph α where
  exists_targets : ∃ targets : List α, ∀ x, ∀ y ∈ succ x, y ∈ targets

namespace FiniteDigraph

/-- Graphs with the same successors are the same. -/
theorem eq_of_succ {α : Type} {g h : FiniteDigraph α} (hs : ∀ x, g.succ x = h.succ x) : g = h := by
  obtain ⟨⟨succ⟩, _⟩ := g
  obtain ⟨⟨succ'⟩, _⟩ := h
  obtain rfl : succ = succ' := funext hs
  rfl

variable {α : Type} [DecidableEq α]

/-- The graph of a table of successors; a node without an entry is a leaf. -/
def ofTable (t : Table α (List α)) : FiniteDigraph α where
  succ x := (t.get? x).getD []
  exists_targets := by
    refine ⟨t.values.flatten, fun x y hy => ?_⟩
    cases hx : t.get? x with
    | none => simp [hx] at hy
    | some ys =>
      rw [hx, Option.getD_some] at hy
      exact List.mem_flatten.mpr ⟨ys, Table.mem_values_of_get? hx, hy⟩

end FiniteDigraph

end TypeAlias
