import Mathlib.Data.Set.Card
import TypeAlias.Proofs.Graph.Components

/-!
# Searches that share their bookkeeping

Searches from one node after the other may share their bookkeeping. Each of them completes the
strongly connected components of what is within reach of its node and of none of the nodes before,
and leaves the bookkeeping at rest: nothing is on the stack, the nodes reached so far are numbered
in turn, and all loops among them are known.
-/

namespace TypeAlias

variable {α : Type}

namespace Digraph

variable {g : Digraph α} {starts : List α} {x y start : α}

theorem mem_reachable_concat :
    x ∈ g.reachable (starts ++ [start]) ↔ x ∈ g.reachable starts ∨ g.Reaches start x := by
  constructor
  · rintro ⟨s, hs, hx⟩
    rcases List.mem_append.mp hs with hs | hs
    · exact Or.inl ⟨s, hs, hx⟩
    · rw [List.mem_singleton.mp hs] at hx
      exact Or.inr hx
  · rintro (⟨s, hs, hx⟩ | hx)
    · exact ⟨s, List.mem_append_left _ hs, hx⟩
    · exact ⟨start, List.mem_append_right _ List.mem_cons_self, hx⟩

/-- The members of a component on top of others are the nodes connected with one of them. -/
theorem OnTop.mem_iff_connected {below : Set α} {c : List α} (h : g.OnTop below c) (hx : x ∈ c) :
    y ∈ c ↔ g.Connected x y := by
  constructor
  · exact fun hy => ⟨h.connected x hx y hy, h.connected y hy x hx⟩
  · rintro ⟨hxy, hyx⟩
    have hy : y ∈ c ∨ y ∈ below := by
      apply Reaches.keeps (p := fun z => z ∈ c ∨ z ∈ below) ?_ hxy (Or.inl hx)
      rintro z (hz | hz) w hw
      · exact h.closed z hz w hw
      · exact Or.inr (h.below_closed z hz w hw)
    apply hy.resolve_right
    intro hyb
    exact h.fresh x hx (Reaches.keeps (p := (· ∈ below)) h.below_closed hyx hyb)

/-- Lists are the strongly connected components of the nodes of a set: each of these nodes is in one
of them, together with all that is connected with it in the whole graph. -/
structure AreComponents (g : Digraph α) (nodes : Set α) (cs : List (List α)) : Prop where
  ne_nil : ∀ c ∈ cs, c ≠ []
  nodup : cs.flatten.Nodup
  mem_iff : ∀ x, x ∈ cs.flatten ↔ x ∈ nodes
  mem_iff_connected : ∀ c ∈ cs, ∀ x ∈ c, ∀ y, y ∈ c ↔ g.Connected x y

/-- A set without nodes has no components. -/
theorem AreComponents.eq_nil {nodes : Set α} {cs : List (List α)} (h : g.AreComponents nodes cs)
    (hn : ∀ x, x ∉ nodes) : cs = [] := by
  apply List.eq_nil_iff_forall_not_mem.mpr
  intro c hc
  obtain ⟨x, hx⟩ := List.exists_mem_of_ne_nil c (h.ne_nil c hc)
  exact hn x ((h.mem_iff x).mp (List.mem_flatten.mpr ⟨c, hc, hx⟩))

end Digraph

variable [DecidableEq α]

namespace Sound

variable {g : Digraph α} {earlier : SearchState α} {t : Trace α} {x : α} {c : List α}

/-- What is reached has not been reached earlier. -/
theorem not_visited (h : Sound g earlier t) (hx : x ∈ t.nodes) : earlier.visited x = false := by
  induction h with
  | nil => exact absurd hx List.not_mem_nil
  | reached hv _ _ ih =>
    rcases List.mem_cons.mp hx with rfl | hx
    · exact hv
    · exact ih hx
  | emitted _ _ ih => exact ih hx

/-- Nothing leads from what was reached earlier and what has been completed to anything else. -/
theorem closed_with_earlier (h : Sound g earlier t)
    (he : ∀ x, earlier.visited x = true → ∀ y ∈ g.succ x, earlier.visited y = true)
    (hx : earlier.visited x = true ∨ x ∈ t.components.flatten) :
    ∀ y ∈ g.succ x, earlier.visited y = true ∨ y ∈ t.components.flatten := by
  intro y hy
  induction h with
  | nil => exact Or.inl (he x (hx.resolve_right List.not_mem_nil) y hy)
  | reached _ _ _ ih => exact ih hx
  | @emitted c s t hc _ ih =>
    show _ ∨ y ∈ c ++ t.components.flatten
    rw [List.mem_append, or_left_comm]
    rcases hx with hx | hx
    · exact Or.inr (ih (Or.inl hx))
    · rcases List.mem_append.mp hx with hx | hx
      · exact hc.closed x hx y hy
      · exact Or.inr (ih (Or.inr hx))

/-- A component lies on top of what was reached earlier and what was completed before it. -/
theorem onTop {s : SearchState α} (h : Sound g earlier (⟨.emitted c, s⟩ :: t))
    (he : ∀ x, earlier.visited x = true → ∀ y ∈ g.succ x, earlier.visited y = true) :
    g.OnTop {x | earlier.visited x = true ∨ x ∈ t.components.flatten} c := by
  obtain ⟨⟩ | ⟨_, _, _⟩ | ⟨hc, ht⟩ := h
  constructor
  · exact hc.nodup
  · rintro x hx (hv | hxt)
    · rw [ht.not_visited (hc.reached x hx)] at hv
      exact Bool.false_ne_true hv
    · exact hc.fresh x hx hxt
  · exact hc.connected
  · exact hc.closed
  · exact fun x hx => ht.closed_with_earlier he hx

/-- A completed component was completed at some moment of the search. -/
theorem exists_emitted (h : Sound g earlier t) (hc : c ∈ t.components) :
    ∃ (s : SearchState α) (past : Trace α), Sound g earlier (⟨.emitted c, s⟩ :: past) := by
  obtain ⟨before, after, hsplit⟩ := List.append_of_mem hc
  obtain ⟨later, s, past, rfl, -⟩ := Trace.exists_moment hsplit
  exact ⟨s, past, h.of_append⟩

/-- What a search completes are components. -/
theorem areComponents (h : Sound g earlier t)
    (he : ∀ x, earlier.visited x = true → ∀ y ∈ g.succ x, earlier.visited y = true) :
    g.AreComponents {x | x ∈ t.components.flatten} (Trace.components t.reverse) := by
  rw [Trace.components_reverse]
  constructor
  case ne_nil =>
    intro c hc
    obtain ⟨s, past, hs⟩ := h.exists_emitted (List.mem_reverse.mp hc)
    exact hs.emission.ne_nil
  case nodup => exact ((List.reverse_perm _).flatten).nodup_iff.mpr h.nodup_flatten
  case mem_iff => exact fun x => ((List.reverse_perm _).flatten).mem_iff
  case mem_iff_connected =>
    intro c hc x hx y
    obtain ⟨s, past, hs⟩ := h.exists_emitted (List.mem_reverse.mp hc)
    exact (hs.onTop he).mem_iff_connected hx

end Sound

/-! ## The bookkeeping between two searches -/

/-- The bookkeeping of searches from some nodes when none of them is under way. -/
structure SearchState.AtRest (g : Digraph α) (starts : List α) (s : SearchState α) : Prop where
  stack : s.stack = []
  onStack : s.onStack = []
  visited_iff : ∀ x, s.visited x = true ↔ x ∈ g.reachable starts
  counter : s.counter = (g.reachable starts).ncard
  /-- The nodes reached are numbered. -/
  index : Set.BijOn s.index (g.reachable starts) (Set.Iio s.counter)
  lowlink_le : ∀ x ∈ g.reachable starts, s.lowlink x ≤ s.index x
  mem_loops_iff : ∀ x, x ∈ s.loops ↔ x ∈ g.reachable starts ∧ x ∈ g.succ x

namespace Coherent

variable {g : Digraph α} {s : SearchState α} {frames : List (Frame α)} {starts : List α}

/-- The indices number the nodes reached. -/
theorem bijOn_index (h : Coherent g s frames) :
    Set.BijOn s.index {x | s.visited x = true} (Set.Iio s.counter) := by
  have hkey {x : α} (hx : s.visited x = true) : x ∈ s.marks.keys := SearchState.visited_iff.mp hx
  refine ⟨fun x hx => h.index_lt hx, fun x hx y hy hxy => ?_, fun n hn => ?_⟩
  · have hnodup : (s.marks.keys.map s.index).Nodup := by
      rw [h.numbered]
      exact List.nodup_range
    exact List.inj_on_of_nodup_map hnodup (hkey hx) (hkey hy) hxy
  · have hm : n ∈ s.marks.keys.map s.index := by
      rw [h.numbered]
      exact List.mem_range.mpr hn
    obtain ⟨x, hx, rfl⟩ := List.mem_map.mp hm
    exact ⟨x, SearchState.visited_iff.mpr hx, rfl⟩

/-- When no frame is open, the bookkeeping is at rest. -/
theorem atRest (h : Coherent g s []) (hv : ∀ x, s.visited x = true ↔ x ∈ g.reachable starts) :
    s.AtRest g starts := by
  have hstack : s.stack = [] := h.layers
  have hset : {x | s.visited x = true} = g.reachable starts := Set.ext hv
  have hindex := h.bijOn_index
  rw [hset] at hindex
  constructor
  case stack => exact hstack
  case onStack =>
    apply List.eq_nil_iff_forall_not_mem.mpr
    intro x hx
    rw [h.onStack_iff, hstack] at hx
    exact List.not_mem_nil hx
  case visited_iff => exact hv
  case counter =>
    rw [← hindex.injOn.ncard_image, hindex.image_eq, ← Finset.coe_range, Set.ncard_coe_finset,
      Finset.card_range]
  case index => exact hindex
  case lowlink_le => exact fun x _ => h.lowlink_le_index x
  case mem_loops_iff =>
    intro x
    rw [← hv]
    constructor
    · exact h.loops x
    · rintro ⟨hx, hxx⟩
      have hn : x ∉ s.stack := by
        rw [hstack]
        exact List.not_mem_nil
      exact h.mem_loops_of_not_mem_stack hx hn hxx

/-- What has been reached leads nowhere else when no frame is open. -/
theorem visited_of_mem_succ (h : Coherent g s []) {x y : α} (hx : s.visited x = true)
    (hy : y ∈ g.succ x) : s.visited y = true := by
  have hstack : s.stack = [] := h.layers
  have hn : x ∉ s.stack := by
    rw [hstack]
    exact List.not_mem_nil
  exact (h.closed x hx hn y hy).1

end Coherent

/-! ## One search after the other -/

/-- A search from one node more goes on where the search from the others has ended. -/
theorem Digraph.search?_concat (g : Digraph α) (starts : List α) (start : α)
    (earlier : SearchState α) : g.search? (starts ++ [start]) earlier =
      (g.search? starts earlier).bind fun s => Search.visit? g s start := by
  rw [search?, List.foldlM_append]
  simp only [List.foldlM_cons, List.foldlM_nil, bind_pure]
  rfl

/-- What a search leaves: the components it completed, and the bookkeeping. -/
structure Visit (α : Type) where
  components : List (List α)
  state : SearchState α

/-- Searches from one node after the other, each with the bookkeeping that the one before has left,
if all of them end. -/
def Digraph.visits? (g : Digraph α) : List α → SearchState α → Option (List (Visit α))
  | [], _ => some []
  | start :: starts, s => do
    let r ← g.search? [start] s
    let visits ← g.visits? starts r.state
    return ⟨Trace.components r.trace.reverse, r.state⟩ :: visits

/-- What a search from a node leaves when there were searches from other nodes before. -/
structure Visit.Follows (g : Digraph α) (before : List α) (start : α) (v : Visit α) : Prop where
  components : g.AreComponents {x | g.Reaches start x ∧ x ∉ g.reachable before} v.components
  nothing : start ∈ g.reachable before → v.components = []
  atRest : v.state.AtRest g (before ++ [start])

namespace Digraph

variable {g : Digraph α} {before starts : List α} {s : SearchState α} {start : α}

/-- One more search. -/
theorem follows_search? (hc : Coherent g s [])
    (hv : ∀ x, s.visited x = true ↔ x ∈ g.reachable before) {r : Search α}
    (hr : g.search? [start] s = some r) :
    Coherent g r.state [] ∧
      Visit.Follows g before start ⟨Trace.components r.trace.reverse, r.state⟩ := by
  obtain ⟨hi, hf, -⟩ := invariant_search? hc hr
  have hcr := hi.coherent
  rw [hf] at hcr
  have hsound := hi.recorded.sound
  have hstart (x : α) : x ∈ g.reachable [start] ↔ g.Reaches start x := by simp [reachable]
  have hfinished (x : α) := finished_search? hc hr x
  simp only [hstart, hv] at hfinished
  have hnew (x : α) (hx : x ∈ r.trace.components.flatten) : x ∉ g.reachable before := by
    rw [← hv, hsound.not_visited (hsound.mem_nodes hx)]
    exact Bool.false_ne_true
  have hmem : {x | x ∈ r.trace.components.flatten} =
      {x | g.Reaches start x ∧ x ∉ g.reachable before} := by
    ext x
    have := hfinished x
    have := hnew x
    show _ ↔ _ ∧ _
    tauto
  have hcomponents := hsound.areComponents fun x hx y hy => hc.visited_of_mem_succ hx hy
  rw [hmem] at hcomponents
  refine ⟨hcr, hcomponents, fun hs => hcomponents.eq_nil ?_, hcr.atRest fun x => ?_⟩
  · rintro x ⟨hx, hn⟩
    obtain ⟨s, hs, hr⟩ := hs
    exact hn ⟨s, hs, hr.trans hx⟩
  · rw [mem_reachable_concat, visited_search?_iff hc hr, hv, hstart]

/-- Searches end when finitely many nodes are within reach. -/
theorem exists_visits? (hf : (g.reachable starts).Finite) (s : SearchState α) :
    ∃ visits, g.visits? starts s = some visits := by
  induction starts generalizing s with
  | nil => exact ⟨[], rfl⟩
  | cons start starts ih =>
    have hstart : (g.reachable [start]).Finite := hf.subset fun x ⟨y, hy, hx⟩ =>
      ⟨y, List.mem_singleton.mp hy ▸ List.mem_cons_self, hx⟩
    have hrest : (g.reachable starts).Finite := hf.subset fun x ⟨y, hy, hx⟩ =>
      ⟨y, List.mem_cons_of_mem _ hy, hx⟩
    obtain ⟨r, hr⟩ := exists_search?_of_finite hstart s
    obtain ⟨visits, hv⟩ := ih hrest r.state
    refine ⟨⟨Trace.components r.trace.reverse, r.state⟩ :: visits, ?_⟩
    rw [visits?, hr]
    show (g.visits? starts r.state).bind _ = _
    rw [hv]
    rfl

/-- The searches that a list of visits stands for. -/
theorem visits?_cons {visits : List (Visit α)}
    (h : g.visits? (start :: starts) s = some visits) :
    ∃ r rest, g.search? [start] s = some r ∧ g.visits? starts r.state = some rest ∧
      visits = ⟨Trace.components r.trace.reverse, r.state⟩ :: rest := by
  obtain ⟨r, hr, h⟩ := Option.bind_eq_some_iff.mp h
  obtain ⟨rest, hrest, h⟩ := Option.bind_eq_some_iff.mp h
  cases h
  exact ⟨r, rest, hr, hrest, rfl⟩

/-- Searches after searches from other nodes. -/
theorem follows_visits? {visits : List (Visit α)} (hc : Coherent g s [])
    (hv : ∀ x, s.visited x = true ↔ x ∈ g.reachable before)
    (h : g.visits? starts s = some visits) :
    visits.length = starts.length ∧
      ∀ i (hi : i < starts.length) (hi' : i < visits.length),
        visits[i].Follows g (before ++ starts.take i) starts[i] := by
  induction starts generalizing before s visits with
  | nil =>
    cases h
    exact ⟨rfl, fun i hi => absurd hi (Nat.not_lt_zero i)⟩
  | cons start starts ih =>
    obtain ⟨r, rest, hr, hrest, rfl⟩ := visits?_cons h
    obtain ⟨hcr, hfirst⟩ := follows_search? hc hv hr
    obtain ⟨hlength, hothers⟩ := ih hcr hfirst.atRest.visited_iff hrest
    refine ⟨congrArg (· + 1) hlength, fun i hi hi' => ?_⟩
    cases i with
    | zero =>
      rw [List.take_zero, List.append_nil]
      exact hfirst
    | succ i =>
      have hnext := hothers i (Nat.lt_of_succ_lt_succ hi) (Nat.lt_of_succ_lt_succ hi')
      rwa [List.append_assoc] at hnext

/-- Searches that share their bookkeeping from the beginning: each completes the components of what
is within reach of its node and of none before, and leaves the bookkeeping at rest. -/
theorem visits?_follow (g : Digraph α) (starts : List α) (visits : List (Visit α))
    (h : g.visits? starts {} = some visits) :
    visits.length = starts.length ∧
      ∀ i (hi : i < starts.length) (hi' : i < visits.length),
        visits[i].Follows g (starts.take i) starts[i] := by
  have hv (x : α) : ({} : SearchState α).visited x = true ↔ x ∈ g.reachable [] := by
    constructor
    · exact fun hx => absurd hx Bool.false_ne_true
    · rintro ⟨_, hs, -⟩
      exact absurd hs List.not_mem_nil
  have hall := follows_visits? (Coherent.initial g) hv h
  exact hall

theorem visits?_follow_twoCycles :
    ∃ visits, twoCycles.visits? [5, 3, 6, 1, 9] {} = some visits ∧
      visits.length = 5 ∧
      ∀ i (hi : i < [5, 3, 6, 1, 9].length) (hi' : i < visits.length),
        visits[i].Follows twoCycles.toDigraph ([5, 3, 6, 1, 9].take i) [5, 3, 6, 1, 9][i] := by
  obtain ⟨visits, h⟩ := exists_visits? (finite_reachable twoCycles [5, 3, 6, 1, 9]) {}
  exact ⟨visits, h, visits?_follow twoCycles.toDigraph _ _ h⟩

end Digraph

end TypeAlias
