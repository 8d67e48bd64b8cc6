import TypeAlias.Proofs.Graph.Reachability

/-!
# Cycles in components

A component holds a cycle when it has several members or a loop. When it is known which nodes lie
below a component, that is all it takes to tell what its members lead to.
-/

namespace TypeAlias.Digraph

variable {α : Type} {g : Digraph α} {c : List α}

/-- A component holds a cycle: it has several members, or a member that is its own successor. -/
def HoldsCycle (g : Digraph α) (c : List α) : Prop :=
  1 < c.length ∨ ∃ x ∈ c, x ∈ g.succ x

instance [DecidableEq α] (g : Digraph α) (c : List α) : Decidable (g.HoldsCycle c) :=
  inferInstanceAs (Decidable (_ ∨ _))

theorem not_holdsCycle_iff (hc : c ≠ []) :
    ¬ g.HoldsCycle c ↔ ∃ x, c = [x] ∧ x ∉ g.succ x := by
  unfold HoldsCycle
  match c, hc with
  | [x], _ => simp
  | x :: y :: c, _ => simp

/-- Only the successors of the members matter. -/
theorem holdsCycle_congr {h : Digraph α} (hs : ∀ x ∈ c, g.succ x = h.succ x) :
    g.HoldsCycle c ↔ h.HoldsCycle c := by
  apply or_congr Iff.rfl
  constructor
  · rintro ⟨x, hx, hxx⟩
    exact ⟨x, hx, hs x hx ▸ hxx⟩
  · rintro ⟨x, hx, hxx⟩
    exact ⟨x, hx, (hs x hx).symm ▸ hxx⟩

/-- An edge between members makes a cycle. -/
theorem holdsCycle_of_edge {x y : α} (hx : x ∈ c) (hy : y ∈ c) (he : g.Edge x y) :
    g.HoldsCycle c := by
  match c, hx, hy with
  | [w], hx, hy =>
    rw [List.mem_singleton] at hx hy
    subst hx hy
    exact Or.inr ⟨y, List.mem_cons_self, he⟩
  | w :: v :: c, _, _ => exact Or.inl (by simp)

/-- In a component with a cycle every member leads to every member. -/
theorem leadsTo_of_holdsCycle (hn : c.Nodup) (hc : ∀ x ∈ c, ∀ y ∈ c, g.Reaches x y)
    (h : g.HoldsCycle c) {x y : α} (hx : x ∈ c) (hy : y ∈ c) : g.LeadsTo x y := by
  have hloop : ∃ z ∈ c, g.LeadsTo z z := by
    rcases h with hlen | ⟨z, hz, hzz⟩
    · match c, hlen, hn, hc with
      | u :: v :: c, _, hn, hc =>
        have huv := hc u List.mem_cons_self v (by simp)
        have hvu := hc v (by simp) u List.mem_cons_self
        have hne : v ≠ u := by
          rintro rfl
          simp at hn
        rcases Relation.reflTransGen_iff_eq_or_transGen.mp huv with he | huv
        · exact absurd he hne
        · exact ⟨u, List.mem_cons_self, huv.trans_left hvu⟩
    · exact ⟨z, hz, Relation.TransGen.single hzz⟩
  obtain ⟨z, hz, hzz⟩ := hloop
  exact (hzz.trans_right (hc x hx z hz)).trans_left (hc z hz y hy)

/-- A component on top of nodes that lead nowhere else: all that its members lead to, besides each
other, is below. -/
structure OnTop (g : Digraph α) (below : Set α) (c : List α) : Prop where
  nodup : c.Nodup
  fresh : ∀ x ∈ c, x ∉ below
  connected : ∀ x ∈ c, ∀ y ∈ c, g.Reaches x y
  closed : ∀ x ∈ c, ∀ y ∈ g.succ x, y ∈ c ∨ y ∈ below
  below_closed : ∀ x ∈ below, ∀ y ∈ g.succ x, y ∈ below

namespace OnTop

variable {below : Set α}

/-- What a member leads to: the members if there is a cycle, and what is within reach of the edges
out of the component. -/
theorem leadsTo_iff (h : g.OnTop below c) {x y : α} (hx : x ∈ c) :
    g.LeadsTo x y ↔
      (g.HoldsCycle c ∧ y ∈ c) ∨ ∃ w ∈ c, ∃ z ∈ g.succ w, z ∉ c ∧ g.Reaches z y := by
  have edge {u v : α} (hu : u ∈ c) (hv : g.Edge u v) :
      (g.HoldsCycle c ∧ v ∈ c) ∨ ∃ w ∈ c, ∃ z ∈ g.succ w, z ∉ c ∧ g.Reaches z v := by
    by_cases hvc : v ∈ c
    · exact Or.inl ⟨holdsCycle_of_edge hu hvc hv, hvc⟩
    · exact Or.inr ⟨u, hu, v, hv, hvc, Relation.ReflTransGen.refl⟩
  constructor
  · intro hxy
    induction hxy with
    | single he => exact edge hx he
    | tail _ he ih =>
      rcases ih with ⟨_, hz⟩ | ⟨w, hw, z, hz, hzc, hr⟩
      · exact edge hz he
      · exact Or.inr ⟨w, hw, z, hz, hzc, hr.tail he⟩
  · rintro (⟨hcycle, hy⟩ | ⟨w, hw, z, hz, _, hr⟩)
    · exact leadsTo_of_holdsCycle h.nodup h.connected hcycle hx hy
    · exact ((Relation.TransGen.single hz).trans_right (h.connected x hx w hw)).trans_left hr

/-- What is within reach of an edge out of the component is below. -/
theorem mem_below (h : g.OnTop below c) {w z y : α} (hw : w ∈ c) (hz : z ∈ g.succ w) (hzc : z ∉ c)
    (hr : g.Reaches z y) : y ∈ below :=
  Reaches.keeps (p := (· ∈ below)) h.below_closed hr ((h.closed w hw z hz).resolve_left hzc)

/-- What leads back to a member is a member of a component with a cycle. -/
theorem mutual_iff (h : g.OnTop below c) {x y : α} (hx : x ∈ c) :
    g.LeadsTo x y ∧ g.LeadsTo y x ↔ g.HoldsCycle c ∧ y ∈ c := by
  constructor
  · rintro ⟨hxy, hyx⟩
    rcases (h.leadsTo_iff hx).mp hxy with hy | ⟨w, hw, z, hz, hzc, hr⟩
    · exact hy
    · exact absurd (h.mem_below hw hz hzc (hr.trans hyx.to_reflTransGen)) (h.fresh x hx)
  · rintro ⟨hcycle, hy⟩
    exact ⟨leadsTo_of_holdsCycle h.nodup h.connected hcycle hx hy,
      leadsTo_of_holdsCycle h.nodup h.connected hcycle hy hx⟩

/-- A member leads back to itself when the component holds a cycle. -/
theorem leadsTo_self_iff (h : g.OnTop below c) {x : α} (hx : x ∈ c) :
    g.LeadsTo x x ↔ g.HoldsCycle c := by
  rw [← and_iff_left (a := g.HoldsCycle c) hx, ← h.mutual_iff hx]
  exact and_self_iff.symm

end OnTop

end TypeAlias.Digraph
