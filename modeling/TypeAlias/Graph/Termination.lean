import TypeAlias.Graph.Search

/-!
# When a search ends

A search ends when it can only look at finitely many nodes. Every step looks at a successor or leaves
a node; a step that opens a frame reaches a node, and there are finitely many left to reach.
-/

namespace TypeAlias

/-- All successors of the nodes of a list are in the list. -/
def Digraph.ClosedList {α : Type} (g : Digraph α) (nodes : List α) : Prop :=
  ∀ x ∈ nodes, ∀ y ∈ g.succ x, y ∈ nodes

namespace Search

variable {α : Type} [DecidableEq α]

/-- The nodes of a list that have not been reached. -/
def unreached (s : Search α) (nodes : List α) : List α :=
  nodes.filter fun x => !s.state.visited x

/-- The number of looks and leaves that the open frames still need. -/
def pending (s : Search α) : Nat :=
  (s.frames.flatMap fun f => f.rest).length + s.frames.length

/-- The open frames only look at nodes of a list. -/
def LooksWithin (s : Search α) (nodes : List α) : Prop :=
  ∀ f ∈ s.frames, ∀ y ∈ f.rest, y ∈ nodes

theorem unreached_congr {s t : Search α} (h : s.state.marks.keys = t.state.marks.keys)
    (nodes : List α) : s.unreached nodes = t.unreached nodes := by
  unfold unreached
  simp only [SearchState.visited_congr h]

/-- Reaching a new node of the list leaves fewer to reach. -/
theorem length_unreached_descend (g : Digraph α) {s : Search α} {x : α} {nodes : List α}
    (hx : x ∈ nodes) (hv : s.state.visited x = false) :
    ((s.descend g x).unreached nodes).length < (s.unreached nodes).length := by
  have hsub : (s.descend g x).unreached nodes =
      (s.unreached nodes).filter fun y => !(s.descend g x).state.visited y := by
    rw [unreached, unreached, List.filter_filter]
    apply List.filter_congr
    intro y _
    by_cases hy : s.state.visited y = true
    · have : (s.descend g x).state.visited y = true :=
        (SearchState.visited_enter _ _ _).mpr (Or.inr hy)
      simp [this]
    · simp [hy]
  rw [hsub, List.length_filter_lt_length_iff_exists]
  refine ⟨x, List.mem_filter.mpr ⟨hx, by simp [hv]⟩, ?_⟩
  have : (s.descend g x).state.visited x = true :=
    (SearchState.visited_enter _ _ _).mpr (Or.inl rfl)
  simp [this]

theorem frames_leave (s : Search α) (x : α) : (s.leave x).frames = s.frames := by
  have hp : (s.passDown x).frames = s.frames := by
    unfold passDown
    split <;> rfl
  unfold leave
  dsimp only
  split
  · unfold complete
    split <;> exact hp
  · exact hp

theorem keys_leave (s : Search α) (x : α) :
    (s.leave x).state.marks.keys = s.state.marks.keys := by
  have hp : (s.passDown x).state.marks.keys = s.state.marks.keys := by
    unfold passDown
    split
    · rfl
    · exact SearchState.keys_lowerToLowlink _ _ _
  have hc : ((s.passDown x).complete x).state.marks = (s.passDown x).state.marks := by
    have hm := SearchState.marks_pop (s.passDown x).state x
    unfold complete
    split
    · next h => rwa [h] at hm
    · next h => rwa [h] at hm
  unfold leave
  dsimp only
  split
  · rw [hc, hp]
  · exact hp

/-- Looking at a node that has been reached before opens no frame. -/
theorem look_of_visited (g : Digraph α) {s : Search α} {x y : α}
    (h : s.state.visited y = true) :
    s.look g x y = { s with state := (s.state.noteEdge x y).lowerToIndex x y } := by
  unfold look
  dsimp only
  rw [SearchState.visited_congr (congrArg Table.keys (SearchState.marks_noteEdge _ _ _)), if_pos h]

/-- Looking at a new node reaches it. -/
theorem look_of_not_visited (g : Digraph α) {s : Search α} {x y : α}
    (h : s.state.visited y = false) :
    s.look g x y = descend g { s with state := s.state.noteEdge x y } y := by
  unfold look
  dsimp only
  rw [SearchState.visited_congr (congrArg Table.keys (SearchState.marks_noteEdge _ _ _)),
    if_neg (by simp [h])]

theorem step_of_ended (g : Digraph α) {s : Search α} (hf : s.frames = []) : s.step g = s := by
  rw [step, hf]

theorem step_of_finished (g : Digraph α) {s : Search α} {x : α} {below : List (Frame α)}
    (hf : s.frames = ⟨x, []⟩ :: below) : s.step g = { s with frames := below }.leave x := by
  rw [step, hf]

theorem step_of_next (g : Digraph α) {s : Search α} {x y : α} {rest : List α}
    {below : List (Frame α)} (hf : s.frames = ⟨x, y :: rest⟩ :: below) :
    s.step g = { s with frames := ⟨x, rest⟩ :: below }.look g x y := by
  rw [step, hf]

theorem step_of_visited (g : Digraph α) {s : Search α} {x y : α} {rest : List α}
    {below : List (Frame α)} (hf : s.frames = ⟨x, y :: rest⟩ :: below)
    (hv : s.state.visited y = true) :
    s.step g = { s with
      state := (s.state.noteEdge x y).lowerToIndex x y
      frames := ⟨x, rest⟩ :: below } := by
  rw [step_of_next g hf, look_of_visited g (s := { s with frames := ⟨x, rest⟩ :: below }) hv]

theorem step_of_not_visited (g : Digraph α) {s : Search α} {x y : α} {rest : List α}
    {below : List (Frame α)} (hf : s.frames = ⟨x, y :: rest⟩ :: below)
    (hv : s.state.visited y = false) :
    s.step g = descend g { s with
      state := s.state.noteEdge x y
      frames := ⟨x, rest⟩ :: below } y := by
  rw [step_of_next g hf, look_of_not_visited g (s := { s with frames := ⟨x, rest⟩ :: below }) hv]

/-- A step keeps to the list, and reaches a node of it or has less left to do. -/
theorem step_within {g : Digraph α} {nodes : List α} (hn : g.ClosedList nodes) {s : Search α}
    (hs : s.LooksWithin nodes) (hf : s.frames ≠ []) :
    (s.step g).LooksWithin nodes ∧
      (((s.step g).unreached nodes).length < (s.unreached nodes).length ∨
        ((s.step g).unreached nodes).length = (s.unreached nodes).length ∧
          (s.step g).pending < s.pending) := by
  match hfr : s.frames with
  | [] => exact absurd hfr hf
  | ⟨x, []⟩ :: below =>
    rw [step_of_finished g hfr]
    refine ⟨?_, Or.inr ⟨?_, ?_⟩⟩
    · intro f hm
      rw [frames_leave] at hm
      exact hs f (by rw [hfr]; exact List.mem_cons_of_mem _ hm)
    · exact congrArg List.length
        (unreached_congr (t := s) (keys_leave { s with frames := below } x) nodes)
    · rw [pending, pending, frames_leave, hfr]
      simp
  | ⟨x, y :: rest⟩ :: below =>
    have hy : y ∈ nodes := hs ⟨x, y :: rest⟩ (by rw [hfr]; exact List.mem_cons_self) y
      List.mem_cons_self
    have hw : ∀ f ∈ (⟨x, rest⟩ :: below : List (Frame α)), ∀ z ∈ f.rest, z ∈ nodes := by
      intro f hm z hz
      rcases List.mem_cons.mp hm with rfl | hm
      · exact hs ⟨x, y :: rest⟩ (by rw [hfr]; exact List.mem_cons_self) z
          (List.mem_cons_of_mem _ hz)
      · exact hs f (by rw [hfr]; exact List.mem_cons_of_mem _ hm) z hz
    cases hv : s.state.visited y with
    | true =>
      rw [step_of_visited g hfr hv]
      have hk := (SearchState.keys_lowerToIndex (s.state.noteEdge x y) x y).trans
        (congrArg Table.keys (SearchState.marks_noteEdge s.state x y))
      refine ⟨hw, Or.inr ⟨?_, ?_⟩⟩
      · exact congrArg List.length (unreached_congr (t := s) hk nodes)
      · rw [pending, pending, hfr]
        simp
    | false =>
      rw [step_of_not_visited g hfr hv]
      refine ⟨?_, Or.inl ?_⟩
      · intro f hm
        rcases List.mem_cons.mp hm with rfl | hm
        · exact hn y hy
        · exact hw f hm
      · have hk := congrArg Table.keys (SearchState.marks_noteEdge s.state x y)
        have hlt := length_unreached_descend g
          (s := ⟨s.state.noteEdge x y, ⟨x, rest⟩ :: below, s.trace⟩) hy
          ((SearchState.visited_congr hk y).trans hv)
        rwa [unreached_congr (s := ⟨s.state.noteEdge x y, _, _⟩) (t := s) hk nodes] at hlt

/-- A search whose frames keep to a closed list of nodes ends. -/
theorem isSome_run? {g : Digraph α} {nodes : List α} (hn : g.ClosedList nodes) (s : Search α)
    (hs : s.LooksWithin nodes) : (run? g s).isSome := by
  rw [run?]
  split
  · rfl
  · next hf =>
    have hw := step_within hn hs (by simpa using hf)
    exact isSome_run? hn (s.step g) hw.1
termination_by ((s.unreached nodes).length, s.pending)
decreasing_by
  rcases hw.2 with h | ⟨h, h'⟩
  · exact Prod.Lex.left _ _ h
  · rw [Prod.lex_def]
    exact Or.inr ⟨h, h'⟩

/-- A search that has ended has no open frame. -/
theorem frames_run? {g : Digraph α} {s r : Search α} (h : run? g s = some r) : r.frames = [] := by
  apply run?.partial_correctness g (fun _ r => r.frames = []) _ s r h
  intro run ih s r hr
  split at hr
  · next hf =>
    cases hr
    exact List.isEmpty_iff.mp hf
  · exact ih _ _ hr

/-- A visit of a node of a closed list ends. -/
theorem exists_visit? {g : Digraph α} {nodes : List α} (hn : g.ClosedList nodes) {s : Search α}
    (hs : s.frames = []) {start : α} (hm : start ∈ nodes) :
    ∃ r, visit? g s start = some r ∧ r.frames = [] := by
  unfold visit?
  split
  · exact ⟨s, rfl, hs⟩
  · have hw : (s.descend g start).LooksWithin nodes := by
      intro f hf
      rw [descend, hs, List.mem_singleton] at hf
      rw [hf]
      exact hn start hm
    obtain ⟨r, hr⟩ := Option.isSome_iff_exists.mp (isSome_run? hn _ hw)
    exact ⟨r, hr, frames_run? hr⟩

end Search

namespace Digraph

variable {α : Type} [DecidableEq α]

/-- A search from nodes of a closed list ends. -/
theorem exists_search? {g : Digraph α} {nodes : List α} (hn : g.ClosedList nodes)
    {starts : List α} (hm : ∀ x ∈ starts, x ∈ nodes) (state : SearchState α) :
    ∃ r, g.search? starts state = some r := by
  have all (s : Search α) (hs : s.frames = []) :
      ∃ r, starts.foldlM (Search.visit? g) s = some r := by
    induction starts generalizing s with
    | nil => exact ⟨s, rfl⟩
    | cons x xs ih =>
      obtain ⟨r, hr, hf⟩ := Search.exists_visit? hn hs (hm x List.mem_cons_self)
      rw [List.foldlM_cons, hr]
      exact ih (fun y hy => hm y (List.mem_cons_of_mem _ hy)) r hf
  exact all _ rfl

end Digraph

/-- A search of a graph with finitely many successors ends. -/
theorem FiniteDigraph.isSome_search? {α : Type} [DecidableEq α] (g : FiniteDigraph α)
    (starts : List α) (state : SearchState α) : (g.search? starts state).isSome := by
  obtain ⟨targets, ht⟩ := g.exists_targets
  have hn : g.ClosedList (starts ++ targets) := fun x _ y hy =>
    List.mem_append_right _ (ht x y hy)
  obtain ⟨r, hr⟩ := Digraph.exists_search? hn (fun x hx => List.mem_append_left _ hx) state
  rw [hr]
  rfl

end TypeAlias
