import Mathlib.Data.List.Induction
import TypeAlias.Proofs.Graph.SharedState
import TypeAlias.Proofs.Graph.WorkLoop

/-!
# The order of discovery

A search asks for the successors of a node when it reaches the node, and never again: at any moment,
whether or not the search will end, these calls are the nodes reached since it began, in the order
of their indices, and no successors but theirs have had a part in it. A component lists its members
in that order, and the first of them is the one by which the search came into the component.
-/

namespace TypeAlias

variable {α : Type}

/-- How a search came to a node: it was looked at from another node, or the search began there. -/
structure Arrival (α : Type) where
  origin : Option α
  node : α

/-- A list of nodes is in the order of the arrivals, and the search came to each of them from a node
that all those before it lead to. -/
structure Threaded (g : Digraph α) (arrivals : List (Arrival α)) (c : List α) : Prop where
  sublist : c.Sublist (arrivals.map Arrival.node)
  linked : c.Pairwise fun a x => ∃ p, ⟨some p, x⟩ ∈ arrivals ∧ g.Reaches a p

namespace Threaded

variable {g : Digraph α} {arrivals : List (Arrival α)} {c d : List α}

theorem of_sublist (h : Threaded g arrivals c) (hd : d.Sublist c) : Threaded g arrivals d :=
  ⟨hd.trans h.sublist, h.linked.sublist hd⟩

theorem append (h : Threaded g arrivals c) (later : List (Arrival α)) :
    Threaded g (arrivals ++ later) c := by
  constructor
  · rw [List.map_append]
    exact h.sublist.trans (List.sublist_append_left _ _)
  · apply h.linked.imp
    rintro a x ⟨p, hp, hr⟩
    exact ⟨p, List.mem_append_left _ hp, hr⟩

/-- Coming to one more node. -/
theorem concat (h : Threaded g arrivals c) {p x : α} (hp : ∀ a ∈ c, g.Reaches a p) :
    Threaded g (arrivals ++ [⟨some p, x⟩]) (c ++ [x]) := by
  constructor
  · rw [List.map_append]
    exact h.sublist.append (List.Sublist.refl _)
  · apply List.pairwise_append.mpr
    refine ⟨(h.append _).linked, List.pairwise_singleton _ _, ?_⟩
    intro a ha y hy
    rw [List.mem_singleton.mp hy]
    exact ⟨p, List.mem_append_right _ List.mem_cons_self, hp a ha⟩

end Threaded

/-- A search came to each node from outside, or by an edge from a node it had come to before. -/
def Rooted (g : Digraph α) (arrivals : List (Arrival α)) : Prop :=
  ∀ e ∈ arrivals, ∀ p ∈ e.origin,
    e.node ∈ g.succ p ∧ [p, e.node].Sublist (arrivals.map Arrival.node)

/-- Coming to one more node. -/
theorem Rooted.concat {g : Digraph α} {arrivals : List (Arrival α)} {e : Arrival α}
    (h : Rooted g arrivals)
    (he : ∀ p ∈ e.origin, e.node ∈ g.succ p ∧ p ∈ arrivals.map Arrival.node) :
    Rooted g (arrivals ++ [e]) := by
  intro e' hm p hp
  rw [List.map_append]
  rcases List.mem_append.mp hm with hm | hm
  · obtain ⟨hs, hl⟩ := h e' hm p hp
    exact ⟨hs, hl.trans (List.sublist_append_left _ _)⟩
  · rw [List.mem_singleton.mp hm] at hp ⊢
    obtain ⟨hs, hm⟩ := he p hp
    exact ⟨hs, (List.singleton_sublist.mpr hm).append (List.Sublist.refl _)⟩

namespace Search

/-- The nodes whose successors have been asked for, in order. -/
def calls (s : Search α) : List α :=
  Trace.nodes s.trace.reverse

variable [DecidableEq α]

/-- How the next step comes to a new node, if it does. -/
def arrival? (s : Search α) : Option (Arrival α) :=
  match s.frames with
  | ⟨x, y :: _⟩ :: _ => if s.state.visited y then none else some ⟨some x, y⟩
  | _ => none

end Search

variable [DecidableEq α]

/-- What a search goes through that begins with earlier bookkeeping, after it has been told of some
start nodes and has come to some nodes, in order. -/
inductive Digraph.Passes (g : Digraph α) (earlier : SearchState α) :
    List α → List (Arrival α) → Search α → Prop where
  | begin : Passes g earlier [] [] { state := earlier }
  | skip {starts : List α} {arrivals : List (Arrival α)} {s : Search α} {x : α} :
      Passes g earlier starts arrivals s → s.frames = [] → s.state.visited x = true →
      Passes g earlier (starts ++ [x]) arrivals s
  | start {starts : List α} {arrivals : List (Arrival α)} {s : Search α} {x : α} :
      Passes g earlier starts arrivals s → s.frames = [] → s.state.visited x = false →
      Passes g earlier (starts ++ [x]) (arrivals ++ [⟨none, x⟩]) (s.descend g x)
  | step {starts : List α} {arrivals : List (Arrival α)} {s : Search α} :
      Passes g earlier starts arrivals s →
      Passes g earlier starts (arrivals ++ s.arrival?.toList) (s.step g)

/-! ## What one step does -/

namespace SearchState

/-- A component is the upper part of the stack turned round; without one the stack runs empty. -/
theorem stack_pop (s : SearchState α) (x : α) :
    (∃ c t, s.pop x = (some c, t) ∧ s.stack = c.reverse ++ t.stack) ∨
      ∃ t, s.pop x = (none, t) ∧ t.stack = [] := by
  have hsplit := List.takeWhile_append_dropWhile (p := (· ≠ x)) (l := s.stack)
  unfold pop
  dsimp only
  split
  · exact Or.inr ⟨_, rfl, rfl⟩
  · next top below hd =>
    refine Or.inl ⟨_, _, rfl, ?_⟩
    rw [hd] at hsplit
    rw [List.reverse_cons, List.reverse_reverse, List.append_assoc]
    exact hsplit.symm

end SearchState

namespace Search

variable {g : Digraph α}

omit [DecidableEq α] in
theorem calls_of_reached {s t : Search α} {x : α} {state : SearchState α}
    (h : t.trace = ⟨.reached x, state⟩ :: s.trace) : t.calls = s.calls ++ [x] := by
  rw [calls, h, List.reverse_cons, Trace.nodes_append]
  rfl

omit [DecidableEq α] in
theorem calls_of_emitted {s t : Search α} {c : List α} {state : SearchState α}
    (h : t.trace = ⟨.emitted c, state⟩ :: s.trace) : t.calls = s.calls := by
  rw [calls, h, List.reverse_cons, Trace.nodes_append]
  exact List.append_nil _

/-- Leaving a node takes the upper part of the stack away. When that is a component, it is completed
with the lowest node first. -/
theorem stack_leave (s : Search α) (x : α) :
    ∃ taken, s.state.stack = taken ++ (s.leave x).state.stack ∧
      ((s.leave x).trace = s.trace ∨
        (s.leave x).trace = ⟨.emitted taken.reverse, (s.leave x).state⟩ :: s.trace) := by
  have hp := And.intro (s.stack_passDown x) (s.trace_passDown x)
  unfold leave
  dsimp only
  split
  · rw [← hp.1, ← hp.2]
    unfold complete
    rcases SearchState.stack_pop (s.passDown x).state x with ⟨c, t, hc, hst⟩ | ⟨t, hn, hst⟩
    · rw [hc]
      refine ⟨c.reverse, hst, Or.inr ?_⟩
      rw [List.reverse_reverse]
    · rw [hn]
      refine ⟨(s.passDown x).state.stack, ?_, Or.inl rfl⟩
      show _ = _ ++ t.stack
      rw [hst, List.append_nil]
  · exact ⟨[], hp.1.symm, Or.inl hp.2⟩

/-- A step comes to a new node and puts it on the stack, or takes the upper part of the stack away,
which may be nothing. -/
theorem step_cases (g : Digraph α) (s : Search α) :
    (∃ x y rest below, s.frames = ⟨x, y :: rest⟩ :: below ∧ s.state.visited y = false ∧
      s.arrival? = some ⟨some x, y⟩ ∧ (s.step g).state.stack = y :: s.state.stack ∧
      (s.step g).trace = ⟨.reached y, (s.step g).state⟩ :: s.trace) ∨
    (s.arrival? = none ∧ ∃ taken, s.state.stack = taken ++ (s.step g).state.stack ∧
      ((s.step g).trace = s.trace ∨
        (s.step g).trace = ⟨.emitted taken.reverse, (s.step g).state⟩ :: s.trace)) := by
  match hf : s.frames with
  | [] =>
    have he : s.arrival? = none := by rw [arrival?, hf]
    rw [step_of_ended g hf]
    exact Or.inr ⟨he, [], rfl, Or.inl rfl⟩
  | ⟨x, []⟩ :: below =>
    have he : s.arrival? = none := by rw [arrival?, hf]
    rw [step_of_finished g hf]
    exact Or.inr ⟨he, stack_leave { s with frames := below } x⟩
  | ⟨x, y :: rest⟩ :: below =>
    have he : s.arrival? = if s.state.visited y then none else some ⟨some x, y⟩ := by
      rw [arrival?, hf]
    cases hv : s.state.visited y with
    | true =>
      rw [step_of_visited g hf hv]
      rw [hv, if_pos rfl] at he
      refine Or.inr ⟨he, [], ?_, Or.inl rfl⟩
      rw [List.nil_append, SearchState.stack_lowerToIndex, SearchState.stack_noteEdge]
    | false =>
      rw [step_of_not_visited g hf hv]
      rw [hv, if_neg Bool.false_ne_true] at he
      refine Or.inl ⟨x, y, rest, below, rfl, hv, he, ?_, rfl⟩
      show y :: (s.state.noteEdge x y).stack = _
      rw [SearchState.stack_noteEdge]

/-- A step asks for no successors but those of the node it comes to. -/
theorem step_congr {h : Digraph α} {s : Search α}
    (hs : ∀ e ∈ s.arrival?, h.succ e.node = g.succ e.node) : s.step h = s.step g := by
  match hf : s.frames with
  | [] => rw [step_of_ended h hf, step_of_ended g hf]
  | ⟨x, []⟩ :: below => rw [step_of_finished h hf, step_of_finished g hf]
  | ⟨x, y :: rest⟩ :: below =>
    cases hv : s.state.visited y with
    | true => rw [step_of_visited h hf hv, step_of_visited g hf hv]
    | false =>
      have he : s.arrival? = some ⟨some x, y⟩ := by
        rw [arrival?, hf]
        simp [hv]
      rw [step_of_not_visited h hf hv, step_of_not_visited g hf hv, descend, descend, hs _ he]

end Search

/-! ## The arrivals -/

/-- What the arrivals tell about the search. -/
structure Discovering (g : Digraph α) (arrivals : List (Arrival α)) (s : Search α) : Prop where
  calls : arrivals.map Arrival.node = s.calls
  rooted : Rooted g arrivals
  stack : Threaded g arrivals s.state.stack.reverse
  components : ∀ c ∈ s.trace.components, Threaded g arrivals c

namespace Discovering

variable {g : Digraph α} {earlier : SearchState α} {starts : List α} {arrivals : List (Arrival α)}
  {s : Search α}

theorem begin (h : Coherent g earlier []) : Discovering g [] { state := earlier } := by
  have hst : earlier.stack = [] := h.layers
  constructor
  case calls => rfl
  case rooted => exact fun e he => absurd he List.not_mem_nil
  case stack =>
    show Threaded g [] earlier.stack.reverse
    rw [hst]
    exact ⟨List.Sublist.refl _, List.Pairwise.nil⟩
  case components => exact fun c hc => absurd hc List.not_mem_nil

/-- Beginning at a new node. -/
theorem start (h : Discovering g arrivals s) (hst : s.state.stack = []) (x : α) :
    Discovering g (arrivals ++ [⟨none, x⟩]) (s.descend g x) := by
  constructor
  case calls =>
    rw [List.map_append, h.calls]
    exact (Search.calls_of_reached rfl).symm
  case rooted =>
    apply h.rooted.concat
    intro p hp
    cases hp
  case stack =>
    show Threaded g _ (x :: s.state.stack).reverse
    rw [hst]
    constructor
    · rw [List.map_append]
      exact List.sublist_append_right _ _
    · exact List.pairwise_singleton _ _
  case components => exact fun c hc => (h.components c hc).append _

/-- One step. -/
theorem step (h : Discovering g arrivals s) (hi : s.Invariant g earlier starts) :
    Discovering g (arrivals ++ s.arrival?.toList) (s.step g) := by
  rcases s.step_cases g with ⟨x, y, rest, below, hf, -, he, hst, ht⟩ | ⟨he, taken, hst, ht⟩
  · have hc := hi.coherent
    rw [hf] at hc
    have hx : x ∈ s.state.stack.reverse := List.mem_reverse.mpr hc.node_mem
    rw [he, Option.toList_some]
    constructor
    case calls =>
      rw [List.map_append, h.calls]
      exact (Search.calls_of_reached ht).symm
    case rooted =>
      apply h.rooted.concat
      intro p hp
      cases hp
      exact ⟨hc.mem_succ, h.stack.sublist.subset hx⟩
    case stack =>
      rw [hst, List.reverse_cons]
      exact h.stack.concat fun a ha => hc.reaches_top (List.mem_reverse.mp ha)
    case components =>
      rw [ht]
      exact fun c hc => (h.components c hc).append _
  · have hsplit : s.state.stack.reverse = (s.step g).state.stack.reverse ++ taken.reverse := by
      rw [hst, List.reverse_append]
    have hcalls : (s.step g).calls = s.calls := by
      rcases ht with ht | ht
      · rw [Search.calls, ht, Search.calls]
      · exact Search.calls_of_emitted ht
    rw [he, Option.toList_none, List.append_nil]
    constructor
    case calls => rw [hcalls, h.calls]
    case rooted => exact h.rooted
    case stack =>
      apply h.stack.of_sublist
      rw [hsplit]
      exact List.sublist_append_left _ _
    case components =>
      intro c hc
      rcases ht with ht | ht
      · rw [ht] at hc
        exact h.components c hc
      · rw [ht] at hc
        rcases List.mem_cons.mp hc with rfl | hc
        · apply h.stack.of_sublist
          rw [hsplit]
          exact List.sublist_append_right _ _
        · exact h.components c hc

end Discovering

/-! ## Everything a search goes through -/

namespace Digraph.Passes

variable {g : Digraph α} {earlier : SearchState α} {starts : List α} {arrivals : List (Arrival α)}
  {s : Search α}

/-- The invariant holds of all that a search goes through. -/
theorem invariant (hc : Coherent g earlier []) (h : g.Passes earlier starts arrivals s) :
    s.Invariant g earlier starts := by
  induction h with
  | begin => exact Search.Invariant.initial hc []
  | skip _ _ _ ih => exact ih.mono _
  | start _ hf hv ih =>
    apply (ih.mono _).descend hf hv
    exact mem_reachable_of_mem List.mem_concat_self
  | step _ ih => exact ih.step

theorem discovering (hc : Coherent g earlier []) (h : g.Passes earlier starts arrivals s) :
    Discovering g arrivals s := by
  induction h with
  | begin => exact Discovering.begin hc
  | skip _ _ _ ih => exact ih
  | @start starts arrivals s x hp hf _ ih =>
    have hl := (hp.invariant hc).coherent.layers
    rw [hf] at hl
    exact ih.start hl x
  | step hp ih => exact ih.step (hp.invariant hc)

/-- Only the successors of the nodes reached have had a part in a search. -/
theorem congr {h : Digraph α} (hp : g.Passes earlier starts arrivals s)
    (hs : ∀ x ∈ arrivals.map Arrival.node, h.succ x = g.succ x) :
    h.Passes earlier starts arrivals s := by
  induction hp with
  | begin => exact .begin
  | skip _ hf hv ih => exact (ih hs).skip hf hv
  | @start starts arrivals s x _ hf hv ih =>
    rw [List.map_append] at hs
    have hd : s.descend g x = s.descend h x := by
      rw [Search.descend, Search.descend, hs x (List.mem_append_right _ List.mem_cons_self)]
    rw [hd]
    exact (ih fun y hy => hs y (List.mem_append_left _ hy)).start hf hv
  | @step starts arrivals s _ ih =>
    rw [List.map_append] at hs
    have hstep : s.step h = s.step g := by
      apply Search.step_congr
      intro e he
      apply hs
      exact List.mem_append_right _ (List.mem_map_of_mem (Option.mem_toList.mpr he))
    rw [← hstep]
    exact (ih fun y hy => hs y (List.mem_append_left _ hy)).step

/-- A search that has ended has gone through its result. -/
theorem run? (h : g.Passes earlier starts arrivals s) {r : Search α}
    (hr : Search.run? g s = some r) : ∃ arrivals', g.Passes earlier starts arrivals' r := by
  apply Search.run?.partial_correctness g
    (fun s r => ∀ arrivals, g.Passes earlier starts arrivals s →
      ∃ arrivals', g.Passes earlier starts arrivals' r) _ s r hr arrivals h
  intro run ih s r hr arrivals hs
  split at hr
  · cases hr
    exact ⟨arrivals, hs⟩
  · exact ih _ _ hr _ hs.step

theorem visit? (h : g.Passes earlier starts arrivals s) (hf : s.frames = []) {start : α}
    {r : Search α} (hr : Search.visit? g s start = some r) :
    (∃ arrivals', g.Passes earlier (starts ++ [start]) arrivals' r) ∧ r.frames = [] := by
  unfold Search.visit? at hr
  split at hr
  · next hv =>
    cases hr
    exact ⟨⟨arrivals, h.skip hf hv⟩, hf⟩
  · next hv =>
    rw [Bool.not_eq_true] at hv
    exact ⟨(h.start hf hv).run? hr, Search.frames_run? hr⟩

end Digraph.Passes

namespace Digraph

variable {g : Digraph α} {earlier : SearchState α} {starts : List α}

theorem passes_search? {r : Search α} (hr : g.search? starts earlier = some r) :
    (∃ arrivals, g.Passes earlier starts arrivals r) ∧ r.frames = [] := by
  induction starts using List.reverseRecOn generalizing r with
  | nil =>
    cases hr
    exact ⟨⟨[], .begin⟩, rfl⟩
  | append_singleton starts start ih =>
    rw [search?_concat] at hr
    obtain ⟨s, hs, hr⟩ := Option.bind_eq_some_iff.mp hr
    obtain ⟨⟨arrivals, hp⟩, hf⟩ := ih hs
    exact hp.visit? hf hr

/-- What is said of the calls and the components of a search at any moment. -/
structure Discovery (g : Digraph α) (earlier : SearchState α) (arrivals : List (Arrival α))
    (s : Search α) : Prop where
  nodup : s.calls.Nodup
  /-- The successors of the nodes newly reached have been asked for, and no others. -/
  mem_calls_iff : ∀ x, x ∈ s.calls ↔ s.state.visited x = true ∧ earlier.visited x = false
  index : s.calls.map s.state.index = List.range' earlier.counter s.calls.length
  arrived : arrivals.map Arrival.node = s.calls
  origin : ∀ e ∈ arrivals, ∀ p ∈ e.origin, p ∈ s.calls ∧ e.node ∈ g.succ p
  discovered : ∀ c ∈ Trace.components s.trace.reverse, ∀ x ∈ c, x ∈ s.calls
  sorted : ∀ c ∈ Trace.components s.trace.reverse,
    c.Pairwise fun x y => s.state.index x < s.state.index y
  /-- To the first member of a component, and to no other, the search came from elsewhere. -/
  first : ∀ c ∈ Trace.components s.trace.reverse, ∃ first ∈ c.head?,
    ∀ e ∈ arrivals, e.node ∈ c → (e.node = first ↔ ∀ p ∈ e.origin, p ∉ c)

end Digraph

section Calls

variable {g : Digraph α} {earlier : SearchState α} {starts : List α} {arrivals : List (Arrival α)}
  {s : Search α}

/-- No node is reached twice. -/
theorem Sound.nodup_nodes {t : Trace α} (h : Sound g earlier t) : t.nodes.Nodup := by
  induction h with
  | nil => exact List.nodup_nil
  | reached _ hx _ ih => exact List.nodup_cons.mpr ⟨hx, ih⟩
  | emitted _ _ ih => exact ih

omit [DecidableEq α] in
theorem Search.calls_eq (s : Search α) : s.calls = s.trace.nodes.reverse :=
  List.filterMap_reverse

/-- The nodes reached are numbered on from the earlier ones. -/
theorem Search.Invariant.index_calls (hc : Coherent g earlier [])
    (hi : s.Invariant g earlier starts) :
    s.calls.map s.state.index = List.range' earlier.counter s.calls.length := by
  have hnumbered := hi.coherent.numbered
  rw [hi.recorded.keys, ← s.calls_eq, List.map_append] at hnumbered
  have hearlier : earlier.marks.keys.length = earlier.counter := by
    have := congrArg List.length hc.numbered
    rwa [List.length_map, List.length_range] at this
  have hlength : earlier.counter + s.calls.length = s.state.counter := by
    have := congrArg List.length hnumbered
    rwa [List.length_append, List.length_map, List.length_map, List.length_range, hearlier] at this
  have hdrop := congrArg (List.drop earlier.counter) hnumbered
  rw [List.drop_left' (by rw [List.length_map, hearlier]), List.range_eq_range', List.drop_range']
    at hdrop
  rw [hdrop]
  congr 1 <;> omega

omit [DecidableEq α] in
/-- To the first member of a component the search came from outside the component, and to all others
from inside. -/
theorem Threaded.first_iff {c : List α} {first : α} (h : Threaded g arrivals (first :: c))
    (hr : Rooted g arrivals) {index : α → Nat}
    (hi : (arrivals.map Arrival.node).Pairwise fun x y => index x < index y)
    (hc : ∀ x ∈ first :: c, ∀ y, y ∈ first :: c ↔ g.Connected x y) {e : Arrival α}
    (he : e ∈ arrivals) (hm : e.node ∈ first :: c) :
    e.node = first ↔ ∀ p ∈ e.origin, p ∉ first :: c := by
  have hlater : ∀ x ∈ c, index first < index x := (List.pairwise_cons.mp (hi.sublist h.sublist)).1
  constructor
  · rintro rfl p hp hpc
    have hlt : index p < index e.node := by
      have hpair := hi.sublist (hr e he p hp).2
      exact (List.pairwise_cons.mp hpair).1 e.node List.mem_cons_self
    rcases List.mem_cons.mp hpc with rfl | hpc
    · exact Nat.lt_irrefl _ hlt
    · exact Nat.lt_asymm hlt (hlater p hpc)
  · intro ho
    by_contra hne
    have hec := (List.mem_cons.mp hm).resolve_left hne
    obtain ⟨p, hp, hreach⟩ := (List.pairwise_cons.mp h.linked).1 e.node hec
    have hn : (arrivals.map Arrival.node).Nodup := by
      apply hi.imp
      rintro x y hlt rfl
      exact Nat.lt_irrefl _ hlt
    have heq : e = ⟨some p, e.node⟩ := List.inj_on_of_nodup_map hn he hp rfl
    apply ho p (by rw [heq]; rfl)
    -- The node it was come to from leads back to the first member by way of it.
    have hedge : g.Edge p e.node := (hr _ hp p rfl).1
    have hback := (hc first List.mem_cons_self e.node).mp hm
    exact (hc first List.mem_cons_self p).mpr ⟨hreach, hback.2.head hedge⟩

end Calls

namespace Digraph

variable {g : Digraph α} {earlier : SearchState α} {starts : List α} {arrivals : List (Arrival α)}
  {s : Search α}

theorem Passes.discovery (hc : Coherent g earlier [])
    (h : g.Passes earlier starts arrivals s) : g.Discovery earlier arrivals s := by
  have hi := h.invariant hc
  have hd := h.discovering hc
  have hsound := hi.recorded.sound
  have hnodup : s.calls.Nodup := by
    rw [s.calls_eq, List.nodup_reverse]
    exact hsound.nodup_nodes
  have hindex := hi.index_calls hc
  have hsorted : s.calls.Pairwise fun x y => s.state.index x < s.state.index y := by
    apply List.pairwise_map.mp
    rw [hindex]
    exact List.pairwise_lt_range'
  have hthreaded {c : List α} (hm : c ∈ Trace.components s.trace.reverse) :
      Threaded g arrivals c := by
    rw [Trace.components_reverse] at hm
    exact hd.components c (List.mem_reverse.mp hm)
  have hcomponent {c : List α} (hm : c ∈ Trace.components s.trace.reverse) :
      c.Sublist s.calls := by
    rw [← hd.calls]
    exact (hthreaded hm).sublist
  have hcomponents := hsound.areComponents fun x hx y hy => hc.visited_of_mem_succ hx hy
  constructor
  case nodup => exact hnodup
  case mem_calls_iff =>
    intro x
    rw [hi.recorded.visited_iff, s.calls_eq, List.mem_reverse]
    have hn := hsound.not_visited (x := x)
    constructor
    · exact fun hx => ⟨Or.inr hx, hn hx⟩
    · rintro ⟨hx | hx, hv⟩
      · rw [hx] at hv
        exact absurd hv Bool.true_eq_false_eq_False
      · exact hx
  case index => exact hindex
  case arrived => exact hd.calls
  case origin =>
    intro e he p hp
    obtain ⟨hs, hl⟩ := hd.rooted e he p hp
    rw [hd.calls] at hl
    exact ⟨hl.subset List.mem_cons_self, hs⟩
  case discovered => exact fun c hm x hx => (hcomponent hm).subset hx
  case sorted => exact fun c hm => hsorted.sublist (hcomponent hm)
  case first =>
    intro c hm
    cases c with
    | nil => exact absurd rfl (hcomponents.ne_nil [] hm)
    | cons first c =>
      refine ⟨first, rfl, fun e he hec => ?_⟩
      rw [← hd.calls] at hsorted
      exact (hthreaded hm).first_iff hd.rooted hsorted (hcomponents.mem_iff_connected _ hm) he hec

/-- Successors are asked for once, lazily and in the order of discovery. A search begins with the
bookkeeping that earlier searches have left, if any. Whatever it goes through, whether or not it
will end, it has asked for the successors of the nodes it has newly reached and of no others, once
each and in the order of their indices, which go on from the earlier ones; a graph with the same
successors at these nodes would have been searched alike so far. Every component completed lists its
members by increasing index, and the first of them is the one to which the search came from
elsewhere. When the search has ended, the calls were for the nodes within reach that had not been
reached earlier. -/
theorem search?_discovery (g : Digraph α) (before : List α) (past : Search α)
    (hpast : g.search? before {} = some past) :
    (∀ starts arrivals s, g.Passes past.state starts arrivals s →
      g.Discovery past.state arrivals s ∧
      ∀ h : Digraph α, (∀ x ∈ s.calls, h.succ x = g.succ x) →
        h.Passes past.state starts arrivals s) ∧
    ∀ starts r, g.search? starts past.state = some r →
      (∃ arrivals, g.Passes past.state starts arrivals r) ∧
      ∀ x, x ∈ r.calls ↔ x ∈ g.reachable starts ∧ x ∉ g.reachable before := by
  have hfirst (x : α) : past.state.visited x = true ↔ x ∈ g.reachable before := by
    rw [visited_search?_iff (Coherent.initial g) hpast]
    exact or_iff_right Bool.false_ne_true
  obtain ⟨hi, hf, -⟩ := invariant_search? (Coherent.initial g) hpast
  have hc := hi.coherent
  rw [hf] at hc
  constructor
  · intro starts arrivals s hs
    have hd := hs.discovery hc
    refine ⟨hd, fun h hh => hs.congr ?_⟩
    rw [hd.arrived]
    exact hh
  · intro starts r hr
    obtain ⟨⟨arrivals, hs⟩, -⟩ := passes_search? hr
    refine ⟨⟨arrivals, hs⟩, fun x => ?_⟩
    rw [(hs.discovery hc).mem_calls_iff, visited_search?_iff hc hr, ← Bool.not_eq_true, hfirst]
    tauto

theorem search?_discovery_twoCycles :
    ∃ past, twoCycles.search? [5] {} = some past ∧
      ∃ r arrivals, twoCycles.search? [1, 5, 1] past.state = some r ∧
        twoCycles.Passes past.state [1, 5, 1] arrivals r ∧
        twoCycles.Discovery past.state arrivals r ∧
        ∀ x, x ∈ r.calls ↔ x ∈ twoCycles.reachable [1, 5, 1] ∧ x ∉ twoCycles.reachable [5] := by
  have hpast := twoCycles.search?_eq [5] {}
  have hr := twoCycles.search?_eq [1, 5, 1] (twoCycles.search [5]).state
  obtain ⟨hmoments, hends⟩ := search?_discovery twoCycles.toDigraph [5] _ hpast
  obtain ⟨⟨arrivals, hs⟩, hcalls⟩ := hends _ _ hr
  exact ⟨_, hpast, _, arrivals, hr, hs, (hmoments _ _ _ hs).1, hcalls⟩

end Digraph

end TypeAlias
