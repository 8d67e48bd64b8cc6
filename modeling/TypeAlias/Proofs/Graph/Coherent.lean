import TypeAlias.Proofs.Graph.Nested

/-!
# The invariant of a search

Besides what holds of the stack, the bookkeeping of a search from the beginning numbers all nodes in
the order in which they were reached, and it knows the loops: a node that is its own successor has
been noted once the search has looked that far.
-/

namespace TypeAlias

variable {α : Type} [DecidableEq α]

/-- The nodes reached are numbered in turn. -/
structure Numbered (s : SearchState α) : Prop where
  /-- The indices are given out in order. -/
  numbered : s.marks.keys.map s.index = List.range s.counter
  lowlink_le_index : ∀ x, s.lowlink x ≤ s.index x

namespace Numbered

variable {s t : SearchState α}

/-- Only the marks and the next index matter. -/
theorem congr (h : Numbered s) (hm : t.marks = s.marks) (hc : t.counter = s.counter) :
    Numbered t := by
  have hi (x : α) : t.index x = s.index x := by rw [SearchState.index, hm, SearchState.index]
  have hl (x : α) : t.lowlink x = s.lowlink x := by
    rw [SearchState.lowlink, hm, SearchState.lowlink]
  constructor
  · rw [hm, hc, List.map_congr_left fun x _ => hi x]
    exact h.numbered
  · intro x
    rw [hi, hl]
    exact h.lowlink_le_index x

theorem index_lt (h : Numbered s) {x : α} (hx : s.visited x = true) : s.index x < s.counter := by
  have hm := List.mem_map_of_mem (f := s.index) (SearchState.visited_iff.mp hx)
  rw [h.numbered] at hm
  exact List.mem_range.mp hm

theorem enter (h : Numbered s) {x : α} (hx : s.visited x = false) : Numbered (s.enter x) := by
  have hvx : x ∉ s.marks.keys := by
    rw [← SearchState.visited_iff, hx]
    exact Bool.false_ne_true
  constructor
  · have hk : (s.enter x).marks.keys = s.marks.keys ++ [x] := by
      rw [SearchState.enter, Table.keys_insert, if_neg hvx]
    have hm : s.marks.keys.map (s.enter x).index = s.marks.keys.map s.index := by
      apply List.map_congr_left
      rintro y hy
      rw [SearchState.index_enter, if_neg]
      rintro rfl
      exact hvx hy
    rw [hk, List.map_append, hm, h.numbered, List.map_singleton, SearchState.index_enter,
      if_pos rfl]
    exact List.range_succ.symm
  · intro y
    rw [SearchState.index_enter, SearchState.lowlink_enter]
    split
    · exact Nat.le_refl _
    · exact h.lowlink_le_index y

theorem lower (h : Numbered s) (x : α) (bound : Nat) : Numbered (s.lower x bound) := by
  have hi (y : α) : (s.lower x bound).index y = s.index y := SearchState.index_lower _ _ _ _
  constructor
  · rw [SearchState.keys_lower, List.map_congr_left fun y _ => hi y]
    exact h.numbered
  · intro y
    rw [hi]
    exact (SearchState.lowlink_lower_le s x y bound).trans (h.lowlink_le_index y)

theorem noteEdge (h : Numbered s) (x y : α) : Numbered (s.noteEdge x y) := by
  apply h.congr (SearchState.marks_noteEdge _ _ _)
  rw [SearchState.noteEdge_eq]

theorem leave {s : Search α} (h : Numbered s.state) (x : α) : Numbered (s.leave x).state := by
  have hp : Numbered (s.passDown x).state := by
    rcases s.passDown_cases x with he | ⟨p, bound, he⟩
    · rwa [he]
    · rw [he]
      exact h.lower p bound
  unfold Search.leave
  dsimp only
  split
  · unfold Search.complete
    split
    · next c t ht =>
      obtain ⟨hm, -, hc⟩ := SearchState.unchanged_pop ht
      exact hp.congr hm hc
    · next t ht =>
      obtain ⟨hm, -, hc⟩ := SearchState.unchanged_pop ht
      exact hp.congr hm hc
  · exact hp

/-- One step numbers on. -/
theorem step {g : Digraph α} {s : Search α} (h : Numbered s.state) : Numbered (s.step g).state := by
  match hf : s.frames with
  | [] =>
    rw [Search.step_of_ended g hf]
    exact h
  | ⟨x, []⟩ :: below =>
    rw [Search.step_of_finished g hf]
    exact h.leave (s := { s with frames := below }) x
  | ⟨x, y :: rest⟩ :: below =>
    have hn := h.noteEdge x y
    cases hy : s.state.visited y with
    | true =>
      rw [Search.step_of_visited g hf hy]
      show Numbered ((s.state.noteEdge x y).lowerToIndex x y)
      rcases (s.state.noteEdge x y).lowerToIndex_cases x y with he | ⟨bound, he⟩
      · rwa [he]
      · rw [he]
        exact hn.lower x bound
    | false =>
      rw [Search.step_of_not_visited g hf hy]
      apply hn.enter
      exact (SearchState.visited_congr
        (congrArg Table.keys (SearchState.marks_noteEdge s.state x y)) y).trans hy

end Numbered

/-- The loops that have been noted are loops, and all that the search has looked at. -/
structure Noted (g : Digraph α) (s : SearchState α) (frames : List (Frame α)) : Prop where
  loops : ∀ x ∈ s.loops, s.visited x = true ∧ x ∈ g.succ x
  /-- A loop that has not been noted is still to be looked at. -/
  noted : ∀ x, s.visited x = true → x ∈ g.succ x →
    x ∈ s.loops ∨ ∃ f ∈ frames, f.node = x ∧ ∃ seen, g.succ x = seen ++ f.rest ∧ x ∉ seen

namespace Noted

variable {g : Digraph α} {s t : SearchState α} {frames fs : List (Frame α)} {x y : α}
  {rest : List α}

/-- Only the nodes reached and the loops matter. -/
theorem congr (h : Noted g s frames) (hv : ∀ x, t.visited x = s.visited x)
    (hl : t.loops = s.loops) : Noted g t frames := by
  constructor
  · intro x hx
    rw [hl] at hx
    rw [hv]
    exact h.loops x hx
  · intro x hx hxx
    rw [hv] at hx
    rw [hl]
    exact h.noted x hx hxx

/-- A loop at a node without a frame has been noted. -/
theorem mem_loops (h : Noted g s frames) (hx : s.visited x = true) (hxx : x ∈ g.succ x)
    (hf : ∀ f ∈ frames, f.node ≠ x) : x ∈ s.loops := by
  rcases h.noted x hx hxx with hl | ⟨f, hm, he, -⟩
  · exact hl
  · exact absurd he (hf f hm)

theorem enter (h : Noted g s frames) (x : α) : Noted g (s.enter x) (⟨x, g.succ x⟩ :: frames) := by
  constructor
  · intro y hy
    obtain ⟨hv, hyy⟩ := h.loops y hy
    exact ⟨(SearchState.visited_enter _ _ _).mpr (Or.inr hv), hyy⟩
  · intro y hy hyy
    rcases (SearchState.visited_enter _ _ _).mp hy with rfl | hy
    · exact Or.inr ⟨_, List.mem_cons_self, rfl, [], rfl, List.not_mem_nil⟩
    · apply (h.noted y hy hyy).imp_right
      rintro ⟨f, hf, hn⟩
      exact ⟨f, List.mem_cons_of_mem _ hf, hn⟩

/-- Looking at the next successor. -/
theorem look (h : Noted g s (⟨x, y :: rest⟩ :: fs)) (hx : s.visited x = true)
    (hy : y ∈ g.succ x) : Noted g (s.noteEdge x y) (⟨x, rest⟩ :: fs) := by
  have hv (z : α) : (s.noteEdge x y).visited z = s.visited z :=
    SearchState.visited_congr (congrArg Table.keys (SearchState.marks_noteEdge _ _ _)) z
  constructor
  · intro z hz
    rw [hv]
    rcases (SearchState.mem_loops_noteEdge _ _ _ _).mp hz with hz | ⟨rfl, rfl⟩
    · exact h.loops z hz
    · exact ⟨hx, hy⟩
  · intro z hz hzz
    rw [hv] at hz
    rw [SearchState.mem_loops_noteEdge]
    rcases h.noted z hz hzz with hl | ⟨f, hf, he, seen, hs, hn⟩
    · exact Or.inl (Or.inl hl)
    · rcases List.mem_cons.mp hf with rfl | hf
      · by_cases hyx : y = x
        · exact Or.inl (Or.inr ⟨hyx, he.symm⟩)
        · refine Or.inr ⟨_, List.mem_cons_self, he, seen ++ [y], ?_, ?_⟩
          · rw [hs, List.append_assoc]
            rfl
          · rw [List.mem_append, List.mem_singleton, not_or]
            exact ⟨hn, fun hzy => hyx (hzy.symm.trans he.symm)⟩
      · exact Or.inr ⟨f, List.mem_cons_of_mem _ hf, he, seen, hs, hn⟩

/-- Leaving a node whose successors have all been looked at. -/
theorem leave (h : Noted g s (⟨x, []⟩ :: fs)) : Noted g s fs := by
  refine ⟨h.loops, fun y hy hyy => ?_⟩
  rcases h.noted y hy hyy with hl | ⟨f, hf, he, seen, hs, hn⟩
  · exact Or.inl hl
  · rcases List.mem_cons.mp hf with rfl | hf
    · rw [List.append_nil] at hs
      exact absurd (hs ▸ hyy) hn
    · exact Or.inr ⟨f, hf, he, seen, hs, hn⟩

end Noted

/-- The invariant of a search. -/
structure Coherent (g : Digraph α) (s : SearchState α) (frames : List (Frame α)) : Prop
    extends Nested g s frames, Numbered s, Noted g s frames

namespace Coherent

variable {g : Digraph α} {s : SearchState α} {frames fs : List (Frame α)} {x y : α}
  {rest : List α}

/-- Nothing has been reached at the beginning. -/
theorem initial (g : Digraph α) : Coherent g ({} : SearchState α) [] where
  layers := rfl
  sorted := List.Pairwise.nil
  onStack_iff := fun _ => Iff.rfl
  visited := fun _ h => absurd h List.not_mem_nil
  index_lt_counter := fun _ h => absurd h List.not_mem_nil
  lowlink_le := fun _ h => absurd h List.not_mem_nil
  leadsBack := fun _ h => absurd h List.not_mem_nil
  closed := fun _ h => absurd h Bool.false_ne_true
  numbered := rfl
  lowlink_le_index := fun _ => Nat.le_refl 0
  loops := fun _ h => absurd h List.not_mem_nil
  noted := fun _ h => absurd h Bool.false_ne_true

/-- Reaching a new node, from the node of the topmost frame if there is one. -/
theorem enter (h : Coherent g s frames) (hx : s.visited x = false)
    (he : ∀ p ∈ frames.head?, x ∈ g.succ p.node) :
    Coherent g (s.enter x) (⟨x, g.succ x⟩ :: frames) :=
  ⟨h.toNested.enter hx he, h.toNumbered.enter hx, h.toNoted.enter x⟩

/-- A loop at a node that is not on the stack has been noted. -/
theorem mem_loops_of_not_mem_stack (h : Coherent g s frames) (hx : s.visited x = true)
    (hn : x ∉ s.stack) (hxx : x ∈ g.succ x) : x ∈ s.loops := by
  apply h.mem_loops hx hxx
  rintro f hf rfl
  exact hn (h.layers.node_mem hf)

/-- A loop that the frame of its node has looked at has been noted. -/
theorem mem_loops_of_seen {seen : List α} (h : Coherent g s (⟨x, rest⟩ :: fs))
    (hsucc : g.succ x = seen ++ rest) (hx : x ∈ seen) : x ∈ s.loops := by
  have hxx : x ∈ g.succ x := by
    rw [hsucc]
    exact List.mem_append_left _ hx
  rcases h.noted x (h.visited x h.node_mem) hxx with hl | ⟨f, hf, he, front, hs, hn⟩
  · exact hl
  · rcases List.mem_cons.mp hf with rfl | hf
    · rw [List.append_cancel_right (hs.symm.trans hsucc)] at hn
      exact absurd hx hn
    · exact absurd he (h.node_ne hf)

/-- One step keeps the invariant. -/
theorem step {s : Search α} (h : Coherent g s.state s.frames) :
    Coherent g (s.step g).state (s.step g).frames := by
  refine ⟨h.toNested.step, h.toNumbered.step, ?_⟩
  match hf : s.frames with
  | [] =>
    rw [Search.step_of_ended g hf]
    exact h.toNoted
  | ⟨x, []⟩ :: below =>
    rw [hf] at h
    rw [Search.step_of_finished g hf, Search.frames_leave]
    apply h.toNoted.leave.congr
    · exact SearchState.visited_congr (Search.keys_leave { s with frames := below } x)
    · rcases (Nested.leave (s := { s with frames := below }) h.toNested).2 with he | ⟨_, _, he, hl⟩
      · rw [he, Search.passDown_eq]
      · rw [Search.passDown_eq] at hl
        rw [he]
        exact hl.2.2.1
  | ⟨x, y :: rest⟩ :: below =>
    rw [hf] at h
    have hl := h.toNoted.look (h.visited x h.node_mem) h.mem_succ
    cases hy : s.state.visited y with
    | true =>
      rw [Search.step_of_visited g hf hy]
      apply hl.congr
      · exact SearchState.visited_congr (SearchState.keys_lowerToIndex _ _ _)
      · show ((s.state.noteEdge x y).lowerToIndex x y).loops = _
        rcases (s.state.noteEdge x y).lowerToIndex_cases x y with he | ⟨bound, he⟩
        · rw [he]
        · rw [he]
          rfl
    | false =>
      rw [Search.step_of_not_visited g hf hy]
      exact hl.enter y

end Coherent

end TypeAlias
