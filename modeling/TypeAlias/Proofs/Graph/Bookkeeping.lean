import TypeAlias.Graph.Search

/-!
# Indices and lowlinks

Two views of the bookkeeping of a search, and what each of its operations does to them.
-/

namespace TypeAlias.SearchState

variable {α : Type} [DecidableEq α]

/-- The index of a node that has been reached. -/
def index (s : SearchState α) (x : α) : Nat :=
  ((s.marks.get? x).map Mark.index).getD 0

/-- The lowlink of a node that has been reached. -/
def lowlink (s : SearchState α) (x : α) : Nat :=
  ((s.marks.get? x).map Mark.lowlink).getD 0

theorem get?_marks {s : SearchState α} {x : α} (h : s.visited x = true) :
    s.marks.get? x = some ⟨s.index x, s.lowlink x⟩ := by
  obtain ⟨m, hm⟩ := Option.isSome_iff_exists.mp h
  simp [index, lowlink, hm]

theorem index_enter (s : SearchState α) (x y : α) :
    (s.enter x).index y = if y = x then s.counter else s.index y := by
  simp only [index, enter, Table.get?_insert]
  split <;> rfl

theorem lowlink_enter (s : SearchState α) (x y : α) :
    (s.enter x).lowlink y = if y = x then s.counter else s.lowlink y := by
  simp only [lowlink, enter, Table.get?_insert]
  split <;> rfl

theorem mem_onStack_enter (s : SearchState α) (x y : α) :
    y ∈ (s.enter x).onStack ↔ y = x ∨ y ∈ s.onStack := by
  unfold enter
  dsimp only
  split
  · next h =>
    constructor
    · exact Or.inr
    · rintro (rfl | hy)
      · exact h
      · exact hy
  · exact List.mem_cons

theorem index_lower (s : SearchState α) (x y : α) (bound : Nat) :
    (s.lower x bound).index y = s.index y := by
  simp only [index, lower, Table.get?_modify]
  split
  · next h =>
    subst h
    cases s.marks.get? y <;> rfl
  · rfl

theorem lowlink_lower (s : SearchState α) (x y : α) (bound : Nat) :
    (s.lower x bound).lowlink y = if y = x then min (s.lowlink x) bound else s.lowlink y := by
  simp only [lowlink, lower, Table.get?_modify]
  split
  · cases s.marks.get? x with
    | none => exact (Nat.zero_min bound).symm
    | some m => rfl
  · rfl

theorem lowlink_lower_le (s : SearchState α) (x y : α) (bound : Nat) :
    (s.lower x bound).lowlink y ≤ s.lowlink y := by
  rw [lowlink_lower]
  split
  · next e =>
    rw [e]
    exact Nat.min_le_left _ _
  · exact Nat.le_refl _

theorem visited_lower (s : SearchState α) (x y : α) (bound : Nat) :
    (s.lower x bound).visited y = s.visited y :=
  visited_congr (keys_lower _ _ _) y

theorem lowerToIndex_eq {s : SearchState α} {y : α} (h : s.visited y = true) (x : α) :
    s.lowerToIndex x y = if y ∈ s.onStack then s.lower x (s.index y) else s := by
  rw [lowerToIndex, get?_marks h]

theorem lowerToLowlink_eq {s : SearchState α} {y : α} (h : s.visited y = true) (x : α) :
    s.lowerToLowlink x y = s.lower x (s.lowlink y) := by
  rw [lowerToLowlink, get?_marks h]

theorem isRoot_iff {s : SearchState α} {x : α} (h : s.visited x = true) :
    s.isRoot x = true ↔ s.lowlink x = s.index x := by
  rw [isRoot, get?_marks h, beq_iff_eq]

theorem noteEdge_eq (s : SearchState α) (x y : α) :
    s.noteEdge x y = { s with loops := (s.noteEdge x y).loops } := by
  unfold noteEdge addLoop
  split
  · split <;> rfl
  · rfl

theorem stack_noteEdge (s : SearchState α) (x y : α) : (s.noteEdge x y).stack = s.stack := by
  rw [noteEdge_eq]

theorem mem_loops_noteEdge (s : SearchState α) (x y z : α) :
    z ∈ (s.noteEdge x y).loops ↔ z ∈ s.loops ∨ (y = x ∧ z = x) := by
  unfold noteEdge addLoop
  split
  · next h =>
    split
    · next hm =>
      constructor
      · exact Or.inl
      · rintro (hz | ⟨_, rfl⟩)
        · exact hz
        · exact hm
    · rw [List.mem_cons, or_comm]
      simp [h]
  · next h => simp [h]

/-- A root with nodes above it on the stack is taken off together with them. -/
theorem pop_eq {s : SearchState α} {x : α} {above below : List α}
    (h : s.stack = above ++ x :: below) (hx : x ∉ above) :
    s.pop x = (some (x :: above.reverse), { s with
      stack := below
      onStack := s.onStack.filter fun y => y ∉ above ∧ y ≠ x }) := by
  have hp : ∀ y ∈ above, (decide (y ≠ x)) = true := by
    intro y hy
    rw [decide_eq_true_eq]
    rintro rfl
    exact hx hy
  have ht : s.stack.takeWhile (· ≠ x) = above := by
    rw [h, List.takeWhile_append_of_pos hp, List.takeWhile_cons_of_neg (by simp),
      List.append_nil]
  have hd : s.stack.dropWhile (· ≠ x) = x :: below := by
    rw [h, List.dropWhile_append_of_pos hp, List.dropWhile_cons_of_neg (by simp)]
  simp only [pop, ht, hd]

/-- Taking nodes off the stack changes nothing else. -/
theorem unchanged_pop {s t : SearchState α} {x : α} {r : Option (List α)} (h : s.pop x = (r, t)) :
    t.marks = s.marks ∧ t.loops = s.loops ∧ t.counter = s.counter := by
  unfold pop at h
  dsimp only at h
  split at h
  · cases h
    exact ⟨rfl, rfl, rfl⟩
  · cases h
    exact ⟨rfl, rfl, rfl⟩

/-- Handing a lowlink on is lowering, if there is one. -/
theorem lowerToLowlink_cases (s : SearchState α) (x y : α) :
    s.lowerToLowlink x y = s ∨ ∃ bound, s.lowerToLowlink x y = s.lower x bound := by
  unfold lowerToLowlink
  split
  · exact Or.inr ⟨_, rfl⟩
  · exact Or.inl rfl

/-- Looking at a node that has been reached is lowering, if it is on the stack. -/
theorem lowerToIndex_cases (s : SearchState α) (x y : α) :
    s.lowerToIndex x y = s ∨ ∃ bound, s.lowerToIndex x y = s.lower x bound := by
  unfold lowerToIndex
  split
  · split
    · exact Or.inr ⟨_, rfl⟩
    · exact Or.inl rfl
  · exact Or.inl rfl

theorem stack_lowerToIndex (s : SearchState α) (x y : α) :
    (s.lowerToIndex x y).stack = s.stack := by
  rcases s.lowerToIndex_cases x y with he | ⟨bound, he⟩
  · rw [he]
  · rw [he]
    rfl

end TypeAlias.SearchState
