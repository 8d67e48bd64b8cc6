import Mathlib.Data.List.Nodup
import TypeAlias.Proofs.Graph.Invariant

/-!
# Correctness of the components

A search from some nodes completes the strongly connected components of everything within reach:
every node in exactly one of them, two nodes in the same one when each is within reach of the other,
and each component after those it leads to.
-/

namespace TypeAlias

variable {α : Type}

namespace Trace

theorem components_reverse (t : Trace α) : components t.reverse = (components t).reverse :=
  List.filterMap_reverse

theorem components_append (t u : Trace α) : components (t ++ u) = t.components ++ u.components :=
  List.filterMap_append

theorem nodes_append (t u : Trace α) : nodes (t ++ u) = t.nodes ++ u.nodes :=
  List.filterMap_append

theorem mem_nodes_reverse {t : Trace α} {x : α} : x ∈ nodes t.reverse ↔ x ∈ t.nodes := by
  rw [nodes, List.filterMap_reverse, List.mem_reverse]
  rfl

theorem mem_flatten_reverse {t : Trace α} {x : α} :
    x ∈ (components t.reverse).flatten ↔ x ∈ t.components.flatten := by
  rw [components_reverse, List.mem_flatten, List.mem_flatten]
  simp only [List.mem_reverse]

/-- A component of a trace was completed at some moment. -/
theorem exists_moment {t : Trace α} {before after : List (List α)} {c : List α}
    (h : t.components = before ++ c :: after) :
    ∃ (pre : Trace α) (s : SearchState α) (post : Trace α),
      t = pre ++ ⟨.emitted c, s⟩ :: post ∧ pre.components = before := by
  obtain ⟨t₁, t₂, rfl, h₁, h₂⟩ := List.filterMap_eq_append_iff.mp h
  obtain ⟨u, m, post, rfl, hu, hm, -⟩ := List.filterMap_eq_cons_iff.mp h₂
  refine ⟨t₁ ++ u, m.state, post, ?_, ?_⟩
  · rw [List.append_assoc]
    congr 2
    obtain ⟨e, s⟩ := m
    cases e with
    | reached x => cases hm
    | emitted c' =>
      cases hm
      rfl
  · have hn : components u = [] := List.filterMap_eq_nil_iff.mpr hu
    rw [components_append, hn, List.append_nil]
    exact h₁

end Trace

/-- The strongly connected components of all that is within reach of some nodes, sinks first. -/
structure Digraph.Decomposition (g : Digraph α) (starts : List α) (cs : List (List α)) :
    Prop where
  ne_nil : ∀ c ∈ cs, c ≠ []
  nodup : cs.flatten.Nodup
  mem_iff : ∀ x, x ∈ cs.flatten ↔ x ∈ g.reachable starts
  connected : ∀ c ∈ cs, ∀ x ∈ c, ∀ y ∈ c, g.Reaches x y
  sinksFirst : ∀ before c after, cs = before ++ c :: after →
    ∀ x ∈ c, ∀ y ∈ g.succ x, y ∈ c ∨ y ∈ before.flatten

namespace Digraph

variable {g : Digraph α} {starts : List α}

namespace Decomposition

variable {cs : List (List α)}

theorem exists_position (h : g.Decomposition starts cs) {x : α} (hx : x ∈ g.reachable starts) :
    ∃ i, ∃ hi : i < cs.length, x ∈ cs[i] := by
  obtain ⟨c, hc, hxc⟩ := List.mem_flatten.mp ((h.mem_iff x).mpr hx)
  obtain ⟨i, hi, rfl⟩ := List.getElem_of_mem hc
  exact ⟨i, hi, hxc⟩

/-- Every node has one position. -/
theorem position_unique (h : g.Decomposition starts cs) {x : α} {i j : Nat} (hi : i < cs.length)
    (hj : j < cs.length) (hxi : x ∈ cs[i]) (hxj : x ∈ cs[j]) : i = j := by
  have hd := (List.nodup_flatten.mp h.nodup).2
  rcases Nat.lt_trichotomy i j with hlt | he | hlt
  · exact absurd hxj (List.pairwise_iff_getElem.mp hd i j hi hj hlt hxi)
  · exact he
  · exact absurd hxi (List.pairwise_iff_getElem.mp hd j i hj hi hlt hxj)

/-- An edge leads to the same component or to an earlier one. -/
theorem position_le_of_edge (h : g.Decomposition starts cs) {x y : α} (he : g.Edge x y)
    {i j : Nat} (hi : i < cs.length) (hj : j < cs.length) (hx : x ∈ cs[i]) (hy : y ∈ cs[j]) :
    j ≤ i := by
  have hsplit : cs = cs.take i ++ cs[i] :: cs.drop (i + 1) := by
    rw [List.getElem_cons_drop, List.take_append_drop]
  rcases h.sinksFirst _ _ _ hsplit x hx y he with hyi | hyb
  · exact Nat.le_of_eq (h.position_unique hj hi hy hyi)
  · obtain ⟨c, hc, hyc⟩ := List.mem_flatten.mp hyb
    obtain ⟨k, hk, hkc⟩ := List.getElem_of_mem hc
    rw [List.length_take] at hk
    rw [List.getElem_take] at hkc
    have hyk : y ∈ cs[k] := by rwa [hkc]
    have := h.position_unique hj (by omega) hy hyk
    omega

/-- A path leads to the same component or to an earlier one. -/
theorem position_le_of_reaches (h : g.Decomposition starts cs) {x y : α} (hr : g.Reaches x y)
    {i j : Nat} (hi : i < cs.length) (hj : j < cs.length) (hx : x ∈ cs[i]) (hy : y ∈ cs[j]) :
    j ≤ i := by
  induction hr generalizing j with
  | refl => exact Nat.le_of_eq (h.position_unique hj hi hy hx)
  | tail hxz he ih =>
    have hxr := (h.mem_iff x).mp (List.mem_flatten.mpr ⟨_, List.getElem_mem hi, hx⟩)
    obtain ⟨s, hs, hsx⟩ := hxr
    obtain ⟨k, hk, hz⟩ := h.exists_position ⟨s, hs, hsx.trans hxz⟩
    exact (h.position_le_of_edge he hk hj hz hy).trans (ih hk hz)

/-- Nodes within reach are in the same component when each is within reach of the other. -/
theorem same_iff_connected (h : g.Decomposition starts cs) {x y : α}
    (hx : x ∈ g.reachable starts) (hy : y ∈ g.reachable starts) :
    (∃ c ∈ cs, x ∈ c ∧ y ∈ c) ↔ g.Connected x y := by
  constructor
  · rintro ⟨c, hc, hxc, hyc⟩
    exact ⟨h.connected c hc x hxc y hyc, h.connected c hc y hyc x hxc⟩
  · rintro ⟨hxy, hyx⟩
    obtain ⟨i, hi, hxi⟩ := h.exists_position hx
    obtain ⟨j, hj, hyj⟩ := h.exists_position hy
    have hij : i = j := Nat.le_antisymm (h.position_le_of_reaches hyx hj hi hyj hxi)
      (h.position_le_of_reaches hxy hi hj hxi hyj)
    subst hij
    exact ⟨cs[i], List.getElem_mem hi, hxi, hyj⟩

end Decomposition

/-- In the list of components, an edge leads to the same position or to an earlier one. -/
def SinksFirst (g : Digraph α) (starts : List α) (cs : List (List α)) : Prop :=
  ∀ x ∈ g.reachable starts, ∀ y ∈ g.succ x,
    ∃ i j, ∃ (hi : i < cs.length) (hj : j < cs.length), x ∈ cs[i] ∧ y ∈ cs[j] ∧ j ≤ i ∧
      (∀ k, ∀ hk : k < cs.length, x ∈ cs[k] → k = i) ∧
      ∀ k, ∀ hk : k < cs.length, y ∈ cs[k] → k = j

theorem Decomposition.edges_backward {cs : List (List α)} (h : g.Decomposition starts cs) :
    g.SinksFirst starts cs := by
  intro x hx y hy
  obtain ⟨i, hi, hxi⟩ := h.exists_position hx
  obtain ⟨j, hj, hyj⟩ := h.exists_position (mem_reachable_of_mem_succ hx hy)
  exact ⟨i, j, hi, hj, hxi, hyj, h.position_le_of_edge hy hi hj hxi hyj,
    fun k hk hxk => h.position_unique hk hi hxk hxi,
    fun k hk hyk => h.position_unique hk hj hyk hyj⟩

end Digraph

variable [DecidableEq α]

namespace Sound

variable {g : Digraph α} {earlier : SearchState α} {t : Trace α}

/-- The moments before any moment of a sound trace are a sound trace. -/
theorem of_append {after : Trace α} (h : Sound g earlier (after ++ t)) : Sound g earlier t := by
  induction after with
  | nil => exact h
  | cons m after ih =>
    cases h with
    | reached _ _ h => exact ih h
    | emitted _ h => exact ih h

theorem emission {c : List α} {s : SearchState α} (h : Sound g earlier (⟨.emitted c, s⟩ :: t)) :
    Emission g earlier t c s := by
  cases h with
  | emitted h _ => exact h

/-- What is completed has been reached. -/
theorem mem_nodes (h : Sound g earlier t) {x : α} (hx : x ∈ t.components.flatten) :
    x ∈ t.nodes := by
  induction h with
  | nil => exact hx
  | reached _ _ _ ih => exact List.mem_cons_of_mem _ (ih hx)
  | emitted hc _ ih =>
    rcases List.mem_append.mp hx with hx | hx
    · exact hc.reached x hx
    · exact ih hx

/-- Nothing leads from what is completed to what is not. -/
theorem closed (h : Sound g {} t) {x y : α} (hx : x ∈ t.components.flatten) (hy : y ∈ g.succ x) :
    y ∈ t.components.flatten := by
  induction h with
  | nil => exact absurd hx List.not_mem_nil
  | reached _ _ _ ih => exact ih hx
  | emitted hc _ ih =>
    rcases List.mem_append.mp hx with hx | hx
    · rcases hc.closed x hx y hy with hy | hy | hy
      · exact List.mem_append_left _ hy
      · exact absurd hy Bool.false_ne_true
      · exact List.mem_append_right _ hy
    · exact List.mem_append_right _ (ih hx)

/-- No node is completed twice. -/
theorem nodup_flatten (h : Sound g earlier t) : t.components.flatten.Nodup := by
  induction h with
  | nil => exact List.nodup_nil
  | reached _ _ _ ih => exact ih
  | emitted hc _ ih =>
    apply List.nodup_append'.mpr
    exact ⟨hc.nodup, ih, fun x hx hxt => hc.fresh x hx hxt⟩

end Sound

namespace Digraph

variable {g : Digraph α} {starts : List α} {t : Trace α}

/-- The trace of a search that has ended is sound. -/
theorem sound_trace? (h : g.trace? starts = some t) : Sound g {} t.reverse := by
  obtain ⟨r, hr, rfl⟩ := Option.map_eq_some_iff.mp h
  rw [List.reverse_reverse]
  exact (invariant_search? (Coherent.initial g) hr).1.recorded.sound

theorem mem_components_trace? (h : g.trace? starts = some t) (x : α) :
    x ∈ t.components.flatten ↔ x ∈ g.reachable starts := by
  obtain ⟨r, hr, rfl⟩ := Option.map_eq_some_iff.mp h
  have hf := finished_search? (Coherent.initial g) hr x
  have hv : ({} : SearchState α).visited x ≠ true := Bool.false_ne_true
  rw [or_iff_right hv, or_iff_right hv] at hf
  rw [← hf]
  exact Trace.mem_flatten_reverse

/-- Only what is within reach is reached. -/
theorem mem_reachable_trace? (h : g.trace? starts = some t) {x : α} (hx : x ∈ t.nodes) :
    x ∈ g.reachable starts := by
  obtain ⟨r, hr, rfl⟩ := Option.map_eq_some_iff.mp h
  have hrec := (invariant_search? (Coherent.initial g) hr).1.recorded
  have hv := (hrec.visited_iff x).mpr (Or.inr (Trace.mem_nodes_reverse.mp hx))
  exact (hrec.within x hv).resolve_left Bool.false_ne_true

/-- The moments before any moment of a search are a sound trace. -/
theorem sound_past (h : g.trace? starts = some t) {pre post : Trace α} {m : Moment α}
    (ht : t = pre ++ m :: post) : Sound g {} pre.reverse := by
  have hs := sound_trace? h
  rw [ht, List.reverse_append, List.reverse_cons] at hs
  exact hs.of_append

/-- What the completion of a component says, in a trace that begins at the beginning. -/
theorem emission_trace? (h : g.trace? starts = some t) {pre post : Trace α} {c : List α}
    {s : SearchState α} (ht : t = pre ++ ⟨.emitted c, s⟩ :: post) :
    Emission g {} pre.reverse c s := by
  have hs := sound_trace? h
  rw [ht, List.reverse_append, List.reverse_cons, List.append_assoc] at hs
  exact hs.of_append.emission

/-- A search that has ended has found the components. -/
theorem decomposition_trace? (h : g.trace? starts = some t) :
    g.Decomposition starts t.components := by
  have hs := sound_trace? h
  have split {c : List α} (hc : c ∈ t.components) :
      ∃ (pre : Trace α) (s : SearchState α), Emission g {} pre.reverse c s := by
    obtain ⟨before, after, hsplit⟩ := List.append_of_mem hc
    obtain ⟨pre, s, post, ht, _⟩ := Trace.exists_moment hsplit
    exact ⟨pre, s, emission_trace? h ht⟩
  constructor
  · intro c hc
    obtain ⟨_, _, he⟩ := split hc
    exact he.ne_nil
  · have hn := hs.nodup_flatten
    rw [Trace.components_reverse] at hn
    exact ((List.reverse_perm _).flatten).nodup_iff.mp hn
  · exact mem_components_trace? h
  · intro c hc
    obtain ⟨_, _, he⟩ := split hc
    exact he.connected
  · intro before c after hsplit x hx y hy
    obtain ⟨pre, s, post, ht, rfl⟩ := Trace.exists_moment hsplit
    rcases (emission_trace? h ht).closed x hx y hy with hyc | hyv | hyp
    · exact Or.inl hyc
    · exact absurd hyv Bool.false_ne_true
    · exact Or.inr (Trace.mem_flatten_reverse.mp hyp)

/-- A search for components ends when finitely many nodes are within reach. -/
theorem exists_decomposition (hf : (g.reachable starts).Finite) :
    ∃ cs, g.components? starts = some cs ∧ g.Decomposition starts cs := by
  obtain ⟨r, hr⟩ := exists_search?_of_finite hf {}
  have ht : g.trace? starts = some r.trace.reverse := by
    rw [trace?, hr]
    rfl
  refine ⟨_, ?_, decomposition_trace? ht⟩
  rw [components?, ht]
  rfl

/-- A double edge into a cycle, a loop, an edge across to a second cycle, and a leaf behind it. -/
def twoCycles : FiniteDigraph Nat :=
  .ofTable (.ofList [(1, [2, 2]), (2, [3, 1]), (3, [3, 4]), (4, [5, 3]), (5, [6, 5, 7]), (6, [5])])

/-- The components are found whenever finitely many nodes are within reach: every such node is in
exactly one of them, and two are in the same one exactly when each is within reach of the other. -/
theorem components?_partition (g : Digraph α) (starts : List α)
    (hf : (g.reachable starts).Finite) :
    ∃ cs, g.components? starts = some cs ∧ (∀ c ∈ cs, c ≠ []) ∧ cs.flatten.Nodup ∧
      (∀ x, x ∈ cs.flatten ↔ x ∈ g.reachable starts) ∧
      ∀ x ∈ cs.flatten, ∀ y ∈ cs.flatten, (∃ c ∈ cs, x ∈ c ∧ y ∈ c) ↔ g.Connected x y := by
  obtain ⟨cs, hcs, h⟩ := exists_decomposition hf
  refine ⟨cs, hcs, h.ne_nil, h.nodup, h.mem_iff, ?_⟩
  intro x hx y hy
  exact h.same_iff_connected ((h.mem_iff x).mp hx) ((h.mem_iff y).mp hy)

theorem components?_partition_twoCycles :
    (twoCycles.reachable [3, 1, 3]).Finite ∧ ∃ cs, twoCycles.components? [3, 1, 3] = some cs ∧
      (∀ c ∈ cs, c ≠ []) ∧ cs.flatten.Nodup ∧
      (∀ x, x ∈ cs.flatten ↔ x ∈ twoCycles.reachable [3, 1, 3]) ∧
      ∀ x ∈ cs.flatten, ∀ y ∈ cs.flatten, (∃ c ∈ cs, x ∈ c ∧ y ∈ c) ↔ twoCycles.Connected x y :=
  ⟨finite_reachable _ _, components?_partition twoCycles.toDigraph _ (finite_reachable _ _)⟩

/-- The components come sinks first, those within reach of one node as well as those of all. -/
theorem components?_sinksFirst (g : Digraph α) :
    (∀ starts, (g.reachable starts).Finite →
      ∃ cs, g.components? starts = some cs ∧ g.SinksFirst starts cs) ∧
    ∀ start, (g.reachable [start]).Finite →
      ∃ cs, g.componentsFrom? start = some cs ∧ g.SinksFirst [start] cs := by
  constructor
  · intro starts hf
    obtain ⟨cs, hcs, h⟩ := exists_decomposition hf
    exact ⟨cs, hcs, h.edges_backward⟩
  · intro start hf
    obtain ⟨cs, hcs, h⟩ := exists_decomposition hf
    exact ⟨cs, hcs, h.edges_backward⟩

theorem components?_sinksFirst_twoCycles :
    ((twoCycles.reachable [3, 1, 3]).Finite ∧
      ∃ cs, twoCycles.components? [3, 1, 3] = some cs ∧ twoCycles.SinksFirst [3, 1, 3] cs) ∧
    (twoCycles.reachable [2]).Finite ∧
      ∃ cs, twoCycles.componentsFrom? 2 = some cs ∧ twoCycles.SinksFirst [2] cs :=
  ⟨⟨finite_reachable _ _, (components?_sinksFirst twoCycles.toDigraph).1 _ (finite_reachable _ _)⟩,
    finite_reachable _ _, (components?_sinksFirst twoCycles.toDigraph).2 _ (finite_reachable _ _)⟩

end Digraph

end TypeAlias
