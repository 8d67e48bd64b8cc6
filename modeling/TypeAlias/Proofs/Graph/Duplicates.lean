import TypeAlias.Proofs.FirstOccurrences
import TypeAlias.Proofs.Graph.SharedState

/-!
# Repeated edges and repeated start nodes

A search that looks at a successor once more finds it reached, and all that the edge says taken
into account: nothing changes. So the search does the same, step by step, in the graph with every
edge once, apart from these idle steps, and repeated start nodes are passed over as well.
-/

namespace TypeAlias

variable {α : Type} [DecidableEq α]

/-- The graph with every edge once, in order of first occurrence. -/
def Digraph.dedup (g : Digraph α) : Digraph α where
  succ x := (g.succ x).eraseDups

/-! ## Looking at a successor once more -/

namespace SearchState

variable {s : SearchState α} {x : α}

theorem noteEdge_eq_self {y : α} (h : y = x → x ∈ s.loops) : s.noteEdge x y = s := by
  unfold noteEdge addLoop
  split
  · next e => rw [if_pos (h e)]
  · rfl

theorem lower_eq_self {bound : Nat} (hx : s.visited x = true) (h : s.lowlink x ≤ bound) :
    s.lower x bound = s := by
  have hm : s.marks.modify x (fun m => { m with lowlink := min m.lowlink bound }) = s.marks := by
    apply Table.modify_eq_self
    intro m hm
    rw [get?_marks hx] at hm
    cases hm
    rw [Nat.min_eq_left h]
  rw [lower, hm]

end SearchState

/-- Looking at a successor that has been looked at before changes nothing. -/
theorem Coherent.look_again {g : Digraph α} {s : SearchState α} {x y : α} {seen rest : List α}
    {fs : List (Frame α)} (h : Coherent g s (⟨x, y :: rest⟩ :: fs))
    (hsucc : g.succ x = seen ++ y :: rest) (hy : y ∈ seen) :
    s.visited y = true ∧ (s.noteEdge x y).lowerToIndex x y = s := by
  obtain ⟨above, below, hst, hl, -, -⟩ := h.layers
  obtain ⟨seen', hsucc', hseen⟩ := hl.looked
  have heq : seen' = seen := List.append_cancel_right (hsucc'.symm.trans hsucc)
  have hlooked := hseen y (heq ▸ hy)
  refine ⟨hlooked.visited, ?_⟩
  have hloop : y = x → x ∈ s.loops := by
    rintro rfl
    exact h.mem_loops_of_seen hsucc hy
  rw [SearchState.noteEdge_eq_self hloop, SearchState.lowerToIndex_eq hlooked.visited]
  split
  · next hm =>
    apply SearchState.lower_eq_self (h.visited x h.node_mem)
    -- On the stack the successor is above the node, or is the node, or is below it.
    rw [h.onStack_iff, hst, List.mem_append, List.mem_cons] at hm
    have hle := h.lowlink_le_index x
    rcases hm with hm | rfl | hm
    · have hsorted := h.sorted
      rw [hst, List.pairwise_append] at hsorted
      have := hsorted.2.2 y hm x List.mem_cons_self
      omega
    · exact hle
    · exact hlooked.low hm
  · rfl

/-! ## The same search in the graph with every edge once -/

namespace Frame

/-- The successors in front of the rest. -/
def seen {α : Type} (g : Digraph α) (f : Frame α) : List α :=
  (g.succ f.node).take ((g.succ f.node).length - f.rest.length)

/-- The frame that looks at every successor once: what is left for it are first occurrences. -/
def once (g : Digraph α) (f : Frame α) : Frame α where
  node := f.node
  rest := (f.rest.removeAll (f.seen g)).eraseDups

variable {g : Digraph α} {x y : α} {front rest : List α}

omit [DecidableEq α] in
theorem seen_eq (h : g.succ x = front ++ rest) : (⟨x, rest⟩ : Frame α).seen g = front := by
  simp [seen, h]

/-- A frame on all successors. -/
theorem once_of_succ (g : Digraph α) (x : α) :
    (⟨x, g.succ x⟩ : Frame α).once g = ⟨x, g.dedup.succ x⟩ := by
  have hs : (⟨x, g.succ x⟩ : Frame α).seen g = [] := seen_eq rfl
  rw [once, hs]
  simp [List.removeAll, Digraph.dedup]

/-- A successor that occurs once more is passed over. -/
theorem once_of_mem (h : g.succ x = front ++ y :: rest) (hy : y ∈ front) :
    (⟨x, y :: rest⟩ : Frame α).once g = (⟨x, rest⟩ : Frame α).once g := by
  have hsucc : g.succ x = (front ++ [y]) ++ rest := by
    rw [h, List.append_assoc]
    rfl
  have hmem (z : α) : z ∈ front ++ [y] ↔ z ∈ front := by
    rw [List.mem_append, List.mem_singleton]
    constructor
    · rintro (hz | rfl)
      · exact hz
      · exact hy
    · exact Or.inl
  rw [once, once, seen_eq h, seen_eq hsucc]
  simp [List.removeAll, hmem, hy]

/-- A successor that occurs for the first time comes first. -/
theorem once_of_not_mem (h : g.succ x = front ++ y :: rest) (hy : y ∉ front) :
    (⟨x, y :: rest⟩ : Frame α).once g = ⟨x, y :: ((⟨x, rest⟩ : Frame α).once g).rest⟩ := by
  have hsucc : g.succ x = (front ++ [y]) ++ rest := by
    rw [h, List.append_assoc]
    rfl
  have hrest : (rest.removeAll front).filter (fun z => !z == y) =
      rest.removeAll (front ++ [y]) := by
    rw [List.removeAll, List.removeAll, List.filter_filter]
    apply List.filter_congr
    intro z _
    by_cases hz : z = y <;> simp [hz]
  rw [once, once, seen_eq h, seen_eq hsucc, ← hrest]
  simp [List.removeAll, List.eraseDups_cons, hy]

end Frame

namespace Search

/-- The search that looks at every successor once, under way at the same point. -/
def once (g : Digraph α) (s : Search α) : Search α :=
  { s with frames := s.frames.map (Frame.once g) }

theorem once_of_done {g : Digraph α} {s : Search α} (h : s.frames = []) : s.once g = s := by
  rw [once, h, List.map_nil, ← h]

theorem once_descend (g : Digraph α) (s : Search α) (x : α) :
    (s.descend g x).once g = (s.once g).descend g.dedup x := by
  unfold descend once
  rw [List.map_cons, Frame.once_of_succ]

theorem once_look (g : Digraph α) (s : Search α) (x y : α) :
    (s.look g x y).once g = (s.once g).look g.dedup x y := by
  cases hv : s.state.visited y with
  | true =>
    rw [look_of_visited g hv, look_of_visited g.dedup (s := s.once g) hv]
    rfl
  | false =>
    rw [look_of_not_visited g hv, look_of_not_visited g.dedup (s := s.once g) hv, once_descend]
    rfl

theorem once_leave (g : Digraph α) (s : Search α) (x : α) :
    (s.leave x).once g = (s.once g).leave x := by
  have hp : (s.passDown x).once g = (s.once g).passDown x := by
    unfold passDown once
    cases hf : s.frames <;> simp [hf, Frame.once]
  have hc (t : Search α) : (t.complete x).once g = (t.once g).complete x := by
    unfold complete once
    split <;> simp_all
  have hroot : ((s.passDown x).once g).state.isRoot x = (s.passDown x).state.isRoot x := rfl
  unfold leave
  dsimp only
  rw [← hp, hroot]
  split
  · exact hc _
  · rfl

/-- A step is idle, when it looks at a successor once more, or it is a step of the search that looks
at every successor once. -/
theorem step_once {g : Digraph α} {s : Search α} (hc : Coherent g s.state s.frames) :
    ((s.step g).once g = s.once g ∧ (s.step g).pending < s.pending) ∨
      (s.step g).once g = (s.once g).step g.dedup := by
  match hf : s.frames with
  | [] =>
    rw [step_of_ended g hf, once_of_done hf, step_of_ended g.dedup hf]
    exact Or.inr rfl
  | ⟨x, []⟩ :: below =>
    have ho : (s.once g).frames = ⟨x, []⟩ :: below.map (Frame.once g) := by
      rw [once, hf]
      simp [Frame.once, List.removeAll]
    rw [step_of_finished g hf, once_leave, step_of_finished g.dedup ho]
    exact Or.inr rfl
  | ⟨x, y :: rest⟩ :: below =>
    rw [hf] at hc
    obtain ⟨_, _, _, hl, _⟩ := hc.layers
    obtain ⟨front, hsucc, -⟩ := hl.looked
    by_cases hy : y ∈ front
    · obtain ⟨hv, hsame⟩ := hc.look_again hsucc hy
      have hidle : s.step g = { s with frames := ⟨x, rest⟩ :: below } := by
        rw [step_of_visited g hf hv, hsame]
      rw [hidle]
      refine Or.inl ⟨?_, ?_⟩
      · rw [once, once, hf, List.map_cons, List.map_cons, Frame.once_of_mem hsucc hy]
      · rw [pending, pending, hf]
        simp
    · have ho : (s.once g).frames =
          ⟨x, y :: ((⟨x, rest⟩ : Frame α).once g).rest⟩ :: below.map (Frame.once g) := by
        rw [once, hf, List.map_cons, Frame.once_of_not_mem hsucc hy]
      rw [step_of_next g hf, once_look, step_of_next g.dedup ho]
      exact Or.inr rfl

theorem run?_step (g : Digraph α) (s : Search α) : run? g (s.step g) = run? g s := by
  by_cases hf : s.frames = []
  · rw [step_of_ended g hf]
  · have he : s.frames.isEmpty = false := by simpa using hf
    have hr := run?.eq_1 g s
    rw [he] at hr
    exact hr.symm

variable {g : Digraph α} {earlier : SearchState α} {starts : List α} {s r : Search α}

/-- When a search ends, so does the one that looks at every successor once, and alike. -/
theorem run?_once_of_run? (h : s.Invariant g earlier starts) (hr : run? g s = some r) :
    run? g.dedup (s.once g) = some r := by
  apply run?.partial_correctness g
    (fun s r => s.Invariant g earlier starts → run? g.dedup (s.once g) = some r) _ s r hr h
  intro run ih s r hr hs
  split at hr
  · next hf =>
    cases hr
    rw [once_of_done (List.isEmpty_iff.mp hf), run?, if_pos hf]
  · have hnext := ih _ _ hr hs.step
    rcases step_once hs.coherent with ⟨hidle, -⟩ | hstep
    · rwa [hidle] at hnext
    · rwa [hstep, run?_step] at hnext

/-- When the search that looks at every successor once ends, so does the search, and alike. The idle
steps in between come to an end, as each leaves less to look at. -/
theorem run?_of_run?_once (h : s.Invariant g earlier starts)
    (hr : run? g.dedup (s.once g) = some r) : run? g s = some r := by
  apply run?.partial_correctness g.dedup
    (fun t r => ∀ s, s.Invariant g earlier starts → s.once g = t → run? g s = some r) _ _ r hr s h
      rfl
  intro run ih t r hr s hs ht
  induction hn : s.pending using Nat.strongRecOn generalizing s with
  | ind n idle =>
    subst ht
    by_cases hf : s.frames = []
    · rw [once_of_done hf, hf] at hr
      cases hr
      rw [run?, hf]
      rfl
    · rcases step_once hs.coherent with ⟨hidle, hless⟩ | hstep
      · rw [← run?_step]
        exact idle _ (hn ▸ hless) _ hs.step hidle rfl
      · have he : ((s.once g).frames.isEmpty) = false := by simpa [once] using hf
        rw [he] at hr
        rw [← run?_step]
        exact ih _ _ hr _ hs.step hstep

theorem run?_once (h : s.Invariant g earlier starts) :
    run? g.dedup (s.once g) = run? g s := by
  apply Option.ext
  intro r
  exact ⟨run?_of_run?_once h, run?_once_of_run? h⟩

theorem visit?_dedup (h : s.Invariant g earlier starts) (hf : s.frames = []) (start : α) :
    visit? g.dedup s start = visit? g s start := by
  unfold visit?
  split
  · rfl
  · next hv =>
    rw [Bool.not_eq_true] at hv
    have hd := (h.mono [start]).descend hf hv
      (Digraph.mem_reachable_of_mem List.mem_concat_self)
    rw [← run?_once hd, once_descend, once_of_done hf]

end Search

/-! ## Searches from all start nodes -/

namespace Digraph

variable {g : Digraph α} {earlier : SearchState α}

/-- With every edge once, a search is the same. -/
theorem search?_dedup (hc : Coherent g earlier []) (starts : List α) :
    g.dedup.search? starts earlier = g.search? starts earlier := by
  induction starts using List.reverseRecOn with
  | nil => rfl
  | append_singleton starts start ih =>
    rw [search?_concat, search?_concat, ih]
    apply Option.bind_congr
    intro s hs
    obtain ⟨hi, hf, -⟩ := invariant_search? hc hs
    exact Search.visit?_dedup hi hf start

/-- With every start node once, a search is the same. -/
theorem search?_eraseDups (hc : Coherent g earlier []) (starts : List α) :
    g.search? starts.eraseDups earlier = g.search? starts earlier := by
  induction starts using List.reverseRecOn with
  | nil => rfl
  | append_singleton starts start ih =>
    rw [eraseDups_concat, search?_concat]
    split
    · next hm =>
      -- The node has been reached by then, and the search from it ends at once.
      rw [ih]
      cases hr : g.search? starts earlier with
      | none => rfl
      | some r =>
        obtain ⟨-, -, hv⟩ := invariant_search? hc hr
        rw [Option.bind_some, Search.visit?, if_pos (hv start (List.mem_eraseDups.mp hm))]
    · rw [search?_concat, ih]

/-- Duplicates are harmless: with every edge and every start node once, a search does the same,
moment after moment, and leaves the same bookkeeping; so components, orders and what stands in the
way of an order are the same, and there are some in the one case just when there are in the
other. -/
theorem search?_without_duplicates (g : Digraph α) :
    (∀ starts,
      g.dedup.search? starts.eraseDups = g.search? starts ∧
      g.dedup.components? starts.eraseDups = g.components? starts ∧
      g.dedup.order? starts.eraseDups = g.order? starts ∧
      g.dedup.delivered? starts.eraseDups = g.delivered? starts) ∧
    ∀ start,
      g.dedup.search? [start] = g.search? [start] ∧
      g.dedup.componentsFrom? start = g.componentsFrom? start ∧
      g.dedup.orderFrom? start = g.orderFrom? start := by
  have hc := Coherent.initial g
  constructor
  · intro starts
    have hs : g.dedup.search? starts.eraseDups = g.search? starts := by
      rw [search?_dedup hc, search?_eraseDups hc]
    have ht : g.dedup.trace? starts.eraseDups = g.trace? starts := by rw [trace?, hs, trace?]
    refine ⟨hs, ?_, ?_, ?_⟩
    · rw [components?, ht, components?]
    · rw [order?, ht, order?]
    · rw [delivered?, ht, delivered?]
  · intro start
    have hs : g.dedup.search? [start] = g.search? [start] := search?_dedup hc [start]
    have ht : g.dedup.trace? [start] = g.trace? [start] := by rw [trace?, hs, trace?]
    refine ⟨hs, ?_, ?_⟩
    · rw [componentsFrom?, components?, ht, componentsFrom?, components?]
    · rw [orderFrom?, order?, ht, orderFrom?, order?]

end Digraph

end TypeAlias
