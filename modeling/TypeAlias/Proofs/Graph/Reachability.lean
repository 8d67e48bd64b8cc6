import Mathlib.Data.Set.Finite.Basic
import Mathlib.Logic.Relation
import TypeAlias.Graph.Termination

/-!
# Reachability in a graph

What is within reach of a node, by edges one after the other, and the graphs in which finitely many
nodes are within reach of the start nodes: there a search ends.
-/

namespace TypeAlias.Digraph

variable {α : Type}

/-- A node is a direct successor of another. -/
def Edge (g : Digraph α) (x y : α) : Prop :=
  y ∈ g.succ x

/-- A node is within reach by zero or more edges. -/
abbrev Reaches (g : Digraph α) : α → α → Prop :=
  Relation.ReflTransGen g.Edge

/-- A node is within reach by one or more edges. -/
abbrev LeadsTo (g : Digraph α) : α → α → Prop :=
  Relation.TransGen g.Edge

/-- Two nodes are within reach of each other. -/
def Connected (g : Digraph α) (x y : α) : Prop :=
  g.Reaches x y ∧ g.Reaches y x

/-- The nodes within reach of some nodes. -/
def reachable (g : Digraph α) (starts : List α) : Set α :=
  {y | ∃ x ∈ starts, g.Reaches x y}

/-- What holds of the successors of all nodes with a property holds of all that is within reach. -/
theorem Reaches.keeps {g : Digraph α} {p : α → Prop} (hp : ∀ x, p x → ∀ y ∈ g.succ x, p y)
    {x y : α} (h : g.Reaches x y) (hx : p x) : p y := by
  induction h with
  | refl => exact hx
  | tail _ he ih => exact hp _ ih _ he

/-- Nothing else is within reach of a leaf. -/
theorem Reaches.eq_of_leaf {g : Digraph α} {x y : α} (hx : g.succ x = []) (h : g.Reaches x y) :
    y = x := by
  rcases Relation.ReflTransGen.cases_head h with he | ⟨z, hz, _⟩
  · exact he.symm
  · have hm : z ∈ g.succ x := hz
    rw [hx] at hm
    exact absurd hm List.not_mem_nil

/-- A path of one graph is a path of another that has the same edges out of the nodes with a
property, if these edges keep it. -/
theorem Reaches.transfer {g h : Digraph α} {p : α → Prop}
    (hp : ∀ x, p x → ∀ y ∈ g.succ x, p y ∧ y ∈ h.succ x) {x y : α} (hr : g.Reaches x y)
    (hx : p x) : h.Reaches x y := by
  induction hr with
  | refl => exact Relation.ReflTransGen.refl
  | tail hxz he ih =>
    have hz := Reaches.keeps (fun x hx y hy => (hp x hx y hy).1) hxz hx
    exact ih.tail (hp _ hz _ he).2

/-- Where two graphs have the same edges, and these lead nowhere else, nodes lead to the same. -/
theorem leadsTo_congr {g h : Digraph α} {p : α → Prop}
    (hs : ∀ x, p x → ∀ y, y ∈ g.succ x ↔ y ∈ h.succ x)
    (hp : ∀ x, p x → ∀ y ∈ g.succ x, p y) {x y : α} (hx : p x) :
    g.LeadsTo x y ↔ h.LeadsTo x y := by
  have there : ∀ x, p x → ∀ y ∈ g.succ x, p y ∧ y ∈ h.succ x := fun x hx y hy =>
    ⟨hp x hx y hy, (hs x hx y).mp hy⟩
  have back : ∀ x, p x → ∀ y ∈ h.succ x, p y ∧ y ∈ g.succ x := fun x hx y hy =>
    have hg : y ∈ g.succ x := (hs x hx y).mpr hy
    ⟨hp x hx y hg, hg⟩
  show Relation.TransGen g.Edge x y ↔ Relation.TransGen h.Edge x y
  rw [Relation.TransGen.head'_iff, Relation.TransGen.head'_iff]
  constructor
  · rintro ⟨z, hz, hzy⟩
    exact ⟨z, (there x hx z hz).2, Reaches.transfer there hzy (there x hx z hz).1⟩
  · rintro ⟨z, hz, hzy⟩
    exact ⟨z, (back x hx z hz).2, Reaches.transfer back hzy (back x hx z hz).1⟩

/-- Where two graphs have the same edges, and these lead nowhere else, nodes that lead to each other
are the same. -/
theorem mutual_congr {g h : Digraph α} {p : α → Prop}
    (hs : ∀ x, p x → ∀ y, y ∈ g.succ x ↔ y ∈ h.succ x)
    (hp : ∀ x, p x → ∀ y ∈ g.succ x, p y) {x y : α} (hx : p x) :
    g.LeadsTo x y ∧ g.LeadsTo y x ↔ h.LeadsTo x y ∧ h.LeadsTo y x := by
  rw [← leadsTo_congr hs hp hx]
  apply and_congr_right
  intro hxy
  exact leadsTo_congr hs hp (Reaches.keeps hp hxy.to_reflTransGen hx)

theorem mem_reachable_of_mem {g : Digraph α} {starts : List α} {x : α} (h : x ∈ starts) :
    x ∈ g.reachable starts :=
  ⟨x, h, Relation.ReflTransGen.refl⟩

theorem mem_reachable_of_mem_succ {g : Digraph α} {starts : List α} {x y : α}
    (hx : x ∈ g.reachable starts) (hy : y ∈ g.succ x) : y ∈ g.reachable starts := by
  obtain ⟨s, hs, hr⟩ := hx
  exact ⟨s, hs, hr.tail hy⟩

/-- A search from nodes with finitely many nodes within reach ends. -/
theorem exists_search?_of_finite [DecidableEq α] {g : Digraph α} {starts : List α}
    (hf : (g.reachable starts).Finite) (state : SearchState α) :
    ∃ r, g.search? starts state = some r := by
  have hm (x : α) : x ∈ hf.toFinset.toList ↔ x ∈ g.reachable starts := by
    rw [Finset.mem_toList, Set.Finite.mem_toFinset]
  have hn : g.ClosedList hf.toFinset.toList := fun x hx y hy =>
    (hm y).mpr (mem_reachable_of_mem_succ ((hm x).mp hx) hy)
  exact exists_search? hn (fun x hx => (hm x).mpr (mem_reachable_of_mem hx)) state

/-- In a graph with finitely many successors, finitely many nodes are within reach. -/
theorem finite_reachable (g : FiniteDigraph α) (starts : List α) :
    (g.reachable starts).Finite := by
  obtain ⟨targets, ht⟩ := g.exists_targets
  apply Set.Finite.subset (List.finite_toSet (starts ++ targets))
  rintro y ⟨x, hx, hr⟩
  apply Reaches.keeps (p := fun y => y ∈ starts ++ targets) ?_ hr
  · exact List.mem_append_left _ hx
  · intro z _ y hy
    exact List.mem_append_right _ (ht z y hy)

end TypeAlias.Digraph
