import TypeAlias.Proofs.Graph.SharedState

/-!
# The search as a recursion

The textbook form of the search visits a node by visiting its successors. There the path from the
start node is a stack of suspended calls; in the machine it is the list of frames. A frame stands
for what is left of one call, so that the machine at any moment stands for a recursion under way,
and a step of the machine does not change what that recursion gives.

The machine hands the lowlink of a finished node on before it completes the component of the node,
the recursion afterwards. That is no difference: a component is taken off the stack without regard
to lowlinks, and a node that inherits from itself inherits nothing.
-/

namespace TypeAlias

variable {α : Type} [DecidableEq α]

namespace Visit

/-- Completes the component of the node `x`, all of whose successors have been dealt with, if the
node leads back no further than to itself. -/
def close (v : Visit α) (x : α) : Visit α :=
  if v.state.isRoot x then
    let popped := v.state.pop x
    ⟨v.components ++ popped.1.toList, popped.2⟩
  else v

/-- Visits a node that has not been reached before: it gets the next index and goes on the stack.
Then come its successors in order, and the node is lowered to the lowlink of one that had to be
visited, and to the index of one that is on the stack. -/
def enter? (g : Digraph α) (v : Visit α) (x : α) : Option (Visit α) := do
  let v := { v with state := v.state.enter x }
  let w ← (g.succ x).foldlM (fun v y => do
    let v := { v with state := v.state.noteEdge x y }
    if v.state.visited y then
      return { v with state := v.state.lowerToIndex x y }
    else
      let w ← v |>.enter? g y
      return { w with state := w.state.lowerToLowlink x y }) v
  return w.close x
partial_fixpoint

/-- What the visit of the node `x` does for one successor `y`. -/
def look? (g : Digraph α) (x : α) (v : Visit α) (y : α) : Option (Visit α) := do
  let v := { v with state := v.state.noteEdge x y }
  if v.state.visited y then
    return { v with state := v.state.lowerToIndex x y }
  else
    let w ← v |>.enter? g y
    return { w with state := w.state.lowerToLowlink x y }

theorem enter?_eq (g : Digraph α) (v : Visit α) (x : α) :
    enter? g v x = do
      let w ← (g.succ x).foldlM (look? g x) { v with state := v.state.enter x }
      return w.close x := by
  rw [enter?]
  rfl

/-- Hands the lowlink of the finished node `x` on to the node of the call that is resumed. -/
def passDown (v : Visit α) (x : α) : List (Frame α) → Visit α
  | [] => v
  | parent :: _ => { v with state := v.state.lowerToLowlink parent.node x }

/-- Resumes suspended calls, the last one first: each deals with the successors it has not looked
at, closes its node and returns to the one before. -/
def resume? (g : Digraph α) : List (Frame α) → Visit α → Option (Visit α)
  | [], v => some v
  | ⟨x, rest⟩ :: below, v => do
    let w ← rest.foldlM (look? g x) v
    resume? g below ((w.close x).passDown x below)

end Visit

/-- Visits a node by recursion, unless it has been reached before. -/
def Digraph.recurse? (g : Digraph α) (start : α) (s : SearchState α) : Option (Visit α) :=
  if s.visited start then some ⟨[], s⟩ else Visit.enter? g ⟨[], s⟩ start

/-! ## Lowering a parent and completing a component -/

namespace SearchState

/-- Whether a node is a root does not depend on what inherits from it. -/
theorem isRoot_lowerToLowlink (s : SearchState α) (p x : α) :
    (s.lowerToLowlink p x).isRoot x = s.isRoot x := by
  cases hx : s.marks.get? x with
  | none => rw [lowerToLowlink, hx]
  | some m =>
    rw [lowerToLowlink, hx, isRoot, isRoot, hx]
    simp only [lower, Table.get?_modify]
    by_cases hp : x = p
    · subst hp
      simp [hx]
    · simp [hx, hp]

/-- A component is taken off the stack without regard to lowlinks. -/
theorem pop_lowerToLowlink (s : SearchState α) (p x : α) :
    (s.lowerToLowlink p x).pop x = ((s.pop x).1, (s.pop x).2.lowerToLowlink p x) := by
  have hm : (s.pop x).2.marks = s.marks := marks_pop s x
  cases hx : s.marks.get? x with
  | none =>
    rw [lowerToLowlink, lowerToLowlink, hm, hx]
  | some m =>
    rw [lowerToLowlink, lowerToLowlink, hm, hx]
    unfold pop lower
    dsimp only
    split <;> rfl

end SearchState

/-! ## What the machine stands for -/

namespace Search

/-- What a search has left so far. -/
def outcome (s : Search α) : Visit α :=
  ⟨Trace.components s.trace.reverse, s.state⟩

theorem outcome_complete (s : Search α) (x : α) :
    (s.complete x).outcome =
      ⟨s.outcome.components ++ (s.state.pop x).1.toList, (s.state.pop x).2⟩ := by
  unfold complete outcome
  split
  · next c state h =>
    simp only [h, Trace.components, List.reverse_cons, List.filterMap_append]
    rfl
  · next state h => simp [h]

/-- Reaching a node completes nothing. -/
theorem outcome_descend (g : Digraph α) (s : Search α) (x : α) :
    (s.descend g x).outcome = { s.outcome with state := s.state.enter x } := by
  unfold descend outcome
  simp only [Trace.components, List.reverse_cons, List.filterMap_append]
  exact congrArg (Visit.mk · _) (List.append_nil _)

/-- Leaving a node closes it, and then hands its lowlink on. -/
theorem outcome_leave (s : Search α) (x : α) :
    (s.leave x).outcome = (s.outcome.close x).passDown x s.frames := by
  have hstate : s.outcome.state = s.state := rfl
  unfold leave Visit.close
  dsimp only
  rw [hstate]
  match hf : s.frames with
  | [] =>
    have hp : s.passDown x = s := by rw [passDown, hf]
    rw [hp, Visit.passDown]
    split
    · exact outcome_complete s x
    · rfl
  | parent :: below =>
    have hp : s.passDown x = { s with state := s.state.lowerToLowlink parent.node x } := by
      rw [passDown, hf]
    rw [hp, SearchState.isRoot_lowerToLowlink, Visit.passDown]
    split
    · rw [outcome_complete, SearchState.pop_lowerToLowlink]
      rfl
    · rfl

/-- A step of the machine does not change what the suspended calls give. -/
theorem resume?_step (g : Digraph α) (s : Search α) :
    Visit.resume? g (s.step g).frames (s.step g).outcome = Visit.resume? g s.frames s.outcome := by
  match hf : s.frames with
  | [] => rw [step_of_ended g hf, hf]
  | ⟨x, []⟩ :: below =>
    rw [step_of_finished g hf, frames_leave, outcome_leave]
    rfl
  | ⟨x, y :: rest⟩ :: below =>
    have hnoted : (s.state.noteEdge x y).visited y = s.state.visited y :=
      SearchState.visited_congr (congrArg Table.keys (SearchState.marks_noteEdge _ _ _)) y
    have hstate : s.outcome.state = s.state := rfl
    rw [Visit.resume?, List.foldlM_cons, Visit.look?]
    dsimp only
    rw [hstate, hnoted]
    cases hv : s.state.visited y with
    | true =>
      rw [step_of_visited g hf hv]
      rfl
    | false =>
      rw [step_of_not_visited g hf hv, Visit.enter?_eq, outcome_descend]
      show Visit.resume? g (⟨y, g.succ y⟩ :: ⟨x, rest⟩ :: below) _ = _
      rw [if_neg Bool.false_ne_true]
      simp only [Visit.resume?, bind_assoc, pure_bind]
      rfl

/-- What a search leaves is what the suspended calls give that it stood for. -/
theorem resume?_of_run? {g : Digraph α} {s r : Search α} (h : run? g s = some r) :
    Visit.resume? g s.frames s.outcome = some r.outcome := by
  apply run?.partial_correctness g
    (fun s r => Visit.resume? g s.frames s.outcome = some r.outcome) _ s r h
  intro run ih s r hr
  split at hr
  · next hf =>
    cases hr
    rw [List.isEmpty_iff.mp hf, Visit.resume?]
  · rw [← resume?_step]
    exact ih _ _ hr

end Search

namespace Digraph

variable {g : Digraph α} {start : α} {s : SearchState α}

/-- What a search from a node leaves is what the recursion gives. -/
theorem recurse?_of_search? {r : Search α} (h : g.search? [start] s = some r) :
    g.recurse? start s = some r.outcome := by
  rw [search?, List.foldlM_cons] at h
  obtain ⟨r', h, hr⟩ := Option.bind_eq_some_iff.mp h
  cases hr
  unfold Search.visit? at h
  unfold recurse?
  split at h
  · next hv =>
    rw [if_pos hv]
    cases h
    rfl
  · next hv =>
    have hr := Search.resume?_of_run? h
    rw [if_neg hv, Visit.enter?_eq, ← hr, Search.outcome_descend]
    show _ = Visit.resume? g [⟨start, g.succ start⟩] _
    rw [Visit.resume?]
    rfl

/-- When finitely many nodes are within reach of a node, the search from the node and the recursion
both end, whatever bookkeeping they begin with, complete the same components in the same order, and
leave the same bookkeeping. -/
theorem search?_eq_recurse? (g : Digraph α) (start : α) (hf : (g.reachable [start]).Finite)
    (s : SearchState α) :
    ∃ r, g.search? [start] s = some r ∧
      g.recurse? start s = some ⟨Trace.components r.trace.reverse, r.state⟩ := by
  obtain ⟨r, hr⟩ := exists_search?_of_finite hf s
  exact ⟨r, hr, recurse?_of_search? hr⟩

theorem search?_eq_recurse?_twoCycles :
    (twoCycles.reachable [1]).Finite ∧
      ∃ r, twoCycles.search? [1] (twoCycles.search [5]).state = some r ∧
        twoCycles.recurse? 1 (twoCycles.search [5]).state =
          some ⟨Trace.components r.trace.reverse, r.state⟩ :=
  ⟨finite_reachable twoCycles [1],
    search?_eq_recurse? twoCycles.toDigraph 1 (finite_reachable twoCycles [1]) _⟩

end Digraph

end TypeAlias
