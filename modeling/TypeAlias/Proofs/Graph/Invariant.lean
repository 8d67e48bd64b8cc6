import TypeAlias.Graph.Order
import TypeAlias.Proofs.Graph.Coherent
import TypeAlias.Proofs.Graph.Cycles

/-!
# What the trace of a search says

The trace of a search tells which nodes were reached and which components were completed. Each
completed component is strongly connected, and nothing leads from it to a node that was not completed
before. One step keeps the invariant, and so does a whole search.
-/

namespace TypeAlias

variable {α : Type} [DecidableEq α]

/-- What the completion of a component says, after the moments `t`, the latest of them first. -/
structure Emission (g : Digraph α) (earlier : SearchState α) (t : Trace α) (c : List α)
    (s : SearchState α) : Prop where
  ne_nil : c ≠ []
  nodup : c.Nodup
  reached : ∀ x ∈ c, x ∈ t.nodes
  fresh : ∀ x ∈ c, x ∉ t.components.flatten
  connected : ∀ x ∈ c, ∀ y ∈ c, g.Reaches x y
  closed : ∀ x ∈ c, ∀ y ∈ g.succ x,
    y ∈ c ∨ earlier.visited y = true ∨ y ∈ t.components.flatten
  isCyclic?_iff : s.isCyclic? c = some true ↔ g.HoldsCycle c

/-- A trace, the latest moment first, in which each moment is what it should be. -/
inductive Sound (g : Digraph α) (earlier : SearchState α) : Trace α → Prop where
  | nil : Sound g earlier []
  | reached {x : α} {s : SearchState α} {t : Trace α} : earlier.visited x = false →
      x ∉ t.nodes → Sound g earlier t → Sound g earlier (⟨.reached x, s⟩ :: t)
  | emitted {c : List α} {s : SearchState α} {t : Trace α} : Emission g earlier t c s →
      Sound g earlier t → Sound g earlier (⟨.emitted c, s⟩ :: t)

/-- The bookkeeping agrees with the trace of a search that began with earlier bookkeeping. -/
structure Recorded (g : Digraph α) (earlier : SearchState α) (starts : List α)
    (s : SearchState α) (t : Trace α) : Prop where
  sound : Sound g earlier t
  keys : s.marks.keys = earlier.marks.keys ++ t.nodes.reverse
  finished : ∀ x, s.visited x = true ∧ x ∉ s.stack ↔
    earlier.visited x = true ∨ x ∈ t.components.flatten
  within : ∀ x, s.visited x = true → earlier.visited x = true ∨ x ∈ g.reachable starts

namespace Recorded

variable {g : Digraph α} {earlier s : SearchState α} {starts : List α} {t : Trace α}

theorem visited_iff (h : Recorded g earlier starts s t) (x : α) :
    s.visited x = true ↔ earlier.visited x = true ∨ x ∈ t.nodes := by
  rw [SearchState.visited_iff, SearchState.visited_iff, h.keys, List.mem_append, List.mem_reverse]

/-- Only the nodes reached and the stack matter. -/
theorem congr (h : Recorded g earlier starts s t) {s' : SearchState α}
    (hk : s'.marks.keys = s.marks.keys) (hs : s'.stack = s.stack) :
    Recorded g earlier starts s' t := by
  have hv (x : α) : s'.visited x = s.visited x := SearchState.visited_congr hk x
  constructor
  · exact h.sound
  · rw [hk, h.keys]
  · intro x
    rw [hv, hs]
    exact h.finished x
  · intro x hx
    exact h.within x ((hv x).symm.trans hx)

/-- Reaching a new node. -/
theorem enter (h : Recorded g earlier starts s t) {x : α} (hx : s.visited x = false)
    (hr : x ∈ g.reachable starts) :
    Recorded g earlier starts (s.enter x) (⟨.reached x, s.enter x⟩ :: t) := by
  have hn : ¬ (earlier.visited x = true ∨ x ∈ t.nodes) := by
    rw [← h.visited_iff, hx]
    exact Bool.false_ne_true
  rw [not_or, Bool.not_eq_true] at hn
  constructor
  · exact Sound.reached hn.1 hn.2 h.sound
  · have hk : x ∉ s.marks.keys := by
      rw [← SearchState.visited_iff, hx]
      exact Bool.false_ne_true
    show (s.marks.insert x _).keys = earlier.marks.keys ++ (x :: t.nodes).reverse
    rw [Table.keys_insert, if_neg hk, h.keys, List.reverse_cons, List.append_assoc]
  · intro y
    show (s.enter x).visited y = true ∧ y ∉ x :: s.stack ↔ _ ∨ y ∈ t.components.flatten
    rw [← h.finished y, SearchState.visited_enter, List.mem_cons, not_or]
    constructor
    · rintro ⟨hy, hyx, hys⟩
      exact ⟨hy.resolve_left hyx, hys⟩
    · rintro ⟨hy, hys⟩
      refine ⟨Or.inr hy, ?_, hys⟩
      rintro rfl
      rw [hx] at hy
      exact Bool.false_ne_true hy
  · intro y hy
    rcases (SearchState.visited_enter _ _ _).mp hy with rfl | hy
    · exact Or.inr hr
    · exact h.within y hy

/-- Completing a component. -/
theorem emitted (h : Recorded g earlier starts s t) (hv : ∀ x ∈ s.stack, s.visited x = true)
    {c : List α} (hc : Completed g s c) {s' : SearchState α} (hm : s'.marks = s.marks)
    (hloops : ∀ x ∈ c, x ∈ s'.loops ↔ x ∈ g.succ x)
    (hstack : ∀ y, y ∈ s'.stack ↔ y ∈ s.stack ∧ y ∉ c) :
    Recorded g earlier starts s' (⟨.emitted c, s'⟩ :: t) := by
  have hvis (x : α) : s'.visited x = s.visited x :=
    SearchState.visited_congr (congrArg Table.keys hm) x
  have hfin {x : α} (hx : x ∈ s.stack) :
      ¬ (earlier.visited x = true ∨ x ∈ t.components.flatten) := by
    rw [← h.finished]
    exact fun hn => hn.2 hx
  have hem : Emission g earlier t c s' := by
    constructor
    · exact hc.ne_nil
    · apply hc.sorted.imp
      rintro x y hlt rfl
      exact Nat.lt_irrefl _ hlt
    · intro x hx
      have hxs := hc.mem_stack x hx
      exact ((h.visited_iff x).mp (hv x hxs)).resolve_left fun he => hfin hxs (Or.inl he)
    · exact fun x hx hxt => hfin (hc.mem_stack x hx) (Or.inr hxt)
    · exact hc.connected
    · intro x hx y hy
      rcases hc.closed x hx y hy with hyc | hyf
      · exact Or.inl hyc
      · exact Or.inr ((h.finished y).mp hyf)
    · unfold Digraph.HoldsCycle SearchState.isCyclic?
      match c, hc.ne_nil, hloops with
      | [x], _, hloops => simp [hloops x List.mem_cons_self]
      | x :: y :: c, _, _ => simp
  constructor
  · exact Sound.emitted hem h.sound
  · rw [hm]
    exact h.keys
  · intro x
    show s'.visited x = true ∧ x ∉ s'.stack ↔ _ ∨ x ∈ (c :: t.components).flatten
    rw [hvis, hstack, List.flatten_cons, List.mem_append, or_left_comm, ← h.finished x]
    by_cases hxc : x ∈ c
    · have hxv := hv x (hc.mem_stack x hxc)
      tauto
    · tauto
  · intro x hx
    exact h.within x ((hvis x).symm.trans hx)

end Recorded

namespace Search

/-- The invariant of a search that began with earlier bookkeeping. -/
structure Invariant (g : Digraph α) (earlier : SearchState α) (starts : List α)
    (s : Search α) : Prop where
  coherent : Coherent g s.state s.frames
  recorded : Recorded g earlier starts s.state s.trace

variable {g : Digraph α} {earlier : SearchState α} {starts : List α} {s : Search α}

namespace Invariant

theorem initial (h : Coherent g earlier []) (starts : List α) :
    Invariant g earlier starts { state := earlier } where
  coherent := h
  recorded := by
    constructor
    · exact Sound.nil
    · exact (List.append_nil _).symm
    · intro x
      have hs : earlier.stack = [] := h.layers
      simp [hs, Trace.components]
    · exact fun x hx => Or.inl hx

/-- There may be more start nodes. -/
theorem mono (h : Invariant g earlier starts s) (later : List α) :
    Invariant g earlier (starts ++ later) s where
  coherent := h.coherent
  recorded := { h.recorded with
    within := fun x hx => (h.recorded.within x hx).imp_right fun ⟨y, hy, hr⟩ =>
      ⟨y, List.mem_append_left _ hy, hr⟩ }

/-- A node on the stack is within reach of the start nodes. -/
theorem mem_reachable (h : Invariant g earlier starts s) {x : α} (hx : x ∈ s.state.stack) :
    x ∈ g.reachable starts := by
  have hn : ¬ (earlier.visited x = true) := by
    intro he
    exact ((h.recorded.finished x).mpr (Or.inl he)).2 hx
  exact (h.recorded.within x (h.coherent.visited x hx)).resolve_left hn

/-- Beginning a search from another node. -/
theorem descend (h : Invariant g earlier starts s) (hf : s.frames = []) {x : α}
    (hx : s.state.visited x = false) (hr : x ∈ g.reachable starts) :
    Invariant g earlier starts (s.descend g x) where
  coherent := h.coherent.enter hx (by simp [hf])
  recorded := h.recorded.enter hx hr

/-- Looking at a successor agrees with the trace. -/
theorem recorded_look {x y : α} {rest : List α} {below : List (Frame α)}
    (h : Invariant g earlier starts s) (hf : s.frames = ⟨x, y :: rest⟩ :: below) :
    Recorded g earlier starts (s.step g).state (s.step g).trace := by
  have hc := h.coherent
  rw [hf] at hc
  have hk : (s.state.noteEdge x y).marks.keys = s.state.marks.keys := by
    rw [SearchState.marks_noteEdge]
  have hn := h.recorded.congr hk (SearchState.stack_noteEdge _ _ _)
  cases hy : s.state.visited y with
  | true =>
    rw [step_of_visited g hf hy]
    exact hn.congr (SearchState.keys_lowerToIndex _ _ _) (SearchState.stack_lowerToIndex _ _ _)
  | false =>
    rw [step_of_not_visited g hf hy]
    apply hn.enter
    · exact (SearchState.visited_congr hk y).trans hy
    · exact Digraph.mem_reachable_of_mem_succ (h.mem_reachable hc.node_mem) hc.mem_succ

/-- Leaving a node agrees with the trace. -/
theorem recorded_leave {x : α} {below : List (Frame α)}
    (h : Invariant g earlier starts s) (hf : s.frames = ⟨x, []⟩ :: below) :
    Recorded g earlier starts (s.step g).state (s.step g).trace := by
  have hc := h.coherent
  have hstep := hc.step
  rw [hf] at hc
  rw [step_of_finished g hf] at hstep ⊢
  have hu := Nested.passDown (s := { s with frames := below }) hc.toNested
  have hrec := h.recorded.congr (keys_passDown { s with frames := below } x)
    (stack_passDown { s with frames := below } x)
  rcases (Nested.leave (s := { s with frames := below }) hc.toNested).2 with
    he | ⟨c, t, he, hcomp, hm, -, hst⟩
  · rw [he, trace_passDown]
    exact hrec
  · rw [he] at hstep ⊢
    apply hrec.emitted hu.1.visited hcomp hm _ hst
    intro y hy
    refine ⟨fun hl => (hstep.loops y hl).2, fun hyy => ?_⟩
    have hyv : t.visited y = true :=
      (SearchState.visited_congr (congrArg Table.keys hm) y).trans
        (hu.1.visited y (hcomp.mem_stack y hy))
    exact hstep.mem_loops_of_not_mem_stack hyv (fun hyt => ((hst y).mp hyt).2 hy) hyy

/-- One step keeps the invariant. -/
theorem step (h : Invariant g earlier starts s) : Invariant g earlier starts (s.step g) := by
  refine ⟨h.coherent.step, ?_⟩
  match hf : s.frames with
  | [] =>
    rw [step_of_ended g hf]
    exact h.recorded
  | ⟨x, []⟩ :: below => exact h.recorded_leave hf
  | ⟨x, y :: rest⟩ :: below => exact h.recorded_look hf

/-- A whole run keeps the invariant. -/
theorem run? (h : Invariant g earlier starts s) {r : Search α} (hr : Search.run? g s = some r) :
    Invariant g earlier starts r := by
  apply run?.partial_correctness g
    (fun s r => Invariant g earlier starts s → Invariant g earlier starts r) _ s r hr h
  intro run ih s r hr hs
  split at hr
  · cases hr
    exact hs
  · exact ih _ _ hr hs.step

/-- A search from one more node keeps the invariant. -/
theorem visit? (h : Invariant g earlier starts s) (hf : s.frames = []) {start : α}
    (hm : start ∈ starts) {r : Search α} (hr : Search.visit? g s start = some r) :
    Invariant g earlier starts r ∧ r.frames = [] := by
  unfold Search.visit? at hr
  split at hr
  · cases hr
    exact ⟨h, hf⟩
  · next hv =>
    rw [Bool.not_eq_true] at hv
    have hd := h.descend hf hv (Digraph.mem_reachable_of_mem hm)
    exact ⟨hd.run? hr, frames_run? hr⟩

end Invariant

/-- A step forgets no node that has been reached. -/
theorem visited_step (g : Digraph α) {s : Search α} {x : α} (hx : s.state.visited x = true) :
    (s.step g).state.visited x = true := by
  match hf : s.frames with
  | [] =>
    rw [step_of_ended g hf]
    exact hx
  | ⟨y, []⟩ :: below =>
    rw [step_of_finished g hf]
    exact (SearchState.visited_congr (keys_leave { s with frames := below } y) x).trans hx
  | ⟨y, z :: rest⟩ :: below =>
    have hk := congrArg Table.keys (SearchState.marks_noteEdge s.state y z)
    have hn := (SearchState.visited_congr hk x).trans hx
    cases hz : s.state.visited z with
    | true =>
      rw [step_of_visited g hf hz]
      exact (SearchState.visited_congr (SearchState.keys_lowerToIndex _ _ _) x).trans hn
    | false =>
      rw [step_of_not_visited g hf hz]
      exact (SearchState.visited_enter _ _ _).mpr (Or.inr hn)

theorem visited_run? {g : Digraph α} {s r : Search α} (hr : run? g s = some r) {x : α}
    (hx : s.state.visited x = true) : r.state.visited x = true := by
  apply run?.partial_correctness g
    (fun s r => s.state.visited x = true → r.state.visited x = true) _ s r hr hx
  intro run ih s r hr hx
  split at hr
  · cases hr
    exact hx
  · exact ih _ _ hr (visited_step g hx)

/-- A visit reaches its node and forgets none. -/
theorem visited_visit? {g : Digraph α} {s r : Search α} {start : α}
    (hr : visit? g s start = some r) {x : α} (hx : x = start ∨ s.state.visited x = true) :
    r.state.visited x = true := by
  unfold visit? at hr
  split at hr
  · next hv =>
    cases hr
    rcases hx with rfl | hx
    · exact hv
    · exact hx
  · exact visited_run? hr ((SearchState.visited_enter _ _ _).mpr hx)

end Search

namespace Digraph

variable {g : Digraph α} {earlier : SearchState α} {starts : List α} {r : Search α}

/-- What holds when a search has ended. -/
theorem invariant_search? (h : Coherent g earlier []) (hr : g.search? starts earlier = some r) :
    r.Invariant g earlier starts ∧ r.frames = [] ∧ ∀ x ∈ starts, r.state.visited x = true := by
  have all (todo : List α) (ht : ∀ x ∈ todo, x ∈ starts) (s : Search α)
      (hs : s.Invariant g earlier starts) (hf : s.frames = [])
      (hv : ∀ x ∈ starts, x ∈ todo ∨ s.state.visited x = true)
      (hr : todo.foldlM (Search.visit? g) s = some r) :
      r.Invariant g earlier starts ∧ r.frames = [] ∧ ∀ x ∈ starts, r.state.visited x = true := by
    induction todo generalizing s with
    | nil =>
      cases hr
      exact ⟨hs, hf, fun x hx => (hv x hx).resolve_left List.not_mem_nil⟩
    | cons y todo ih =>
      rw [List.foldlM_cons] at hr
      obtain ⟨s', hs', hr⟩ := Option.bind_eq_some_iff.mp hr
      obtain ⟨hi, hf'⟩ := hs.visit? hf (ht y List.mem_cons_self) hs'
      apply ih (fun x hx => ht x (List.mem_cons_of_mem _ hx)) s' hi hf' _ hr
      intro x hx
      rcases hv x hx with hm | hxv
      · rcases List.mem_cons.mp hm with rfl | hm
        · exact Or.inr (Search.visited_visit? hs' (Or.inl rfl))
        · exact Or.inl hm
      · exact Or.inr (Search.visited_visit? hs' (Or.inr hxv))
  exact all starts (fun _ hx => hx) _ (Search.Invariant.initial h starts) rfl
    (fun x hx => Or.inl hx) hr

/-- A search that has ended has completed exactly the nodes within reach and those from before. -/
theorem finished_search? (h : Coherent g earlier []) (hr : g.search? starts earlier = some r)
    (x : α) : earlier.visited x = true ∨ x ∈ r.trace.components.flatten ↔
      earlier.visited x = true ∨ x ∈ g.reachable starts := by
  obtain ⟨hi, hf, hs⟩ := invariant_search? h hr
  have hc := hi.coherent
  rw [hf] at hc
  have hst : r.state.stack = [] := hc.layers
  have hv (x : α) : r.state.visited x = true ↔
      earlier.visited x = true ∨ x ∈ r.trace.components.flatten := by
    rw [← hi.recorded.finished x, hst]
    simp
  rw [← hv]
  constructor
  · exact hi.recorded.within x
  · rintro (he | ⟨s, hm, hsx⟩)
    · exact (hv x).mpr (Or.inl he)
    · apply hsx.keeps (p := fun y => r.state.visited y = true) _ (hs s hm)
      intro y hy z hz
      have hyn : y ∉ r.state.stack := by
        rw [hst]
        exact List.not_mem_nil
      exact (hc.closed y hy hyn z hz).1

/-- What has been reached when a search has ended: all that is within reach, and what was reached
earlier. -/
theorem visited_search?_iff (h : Coherent g earlier [])
    (hr : g.search? starts earlier = some r) (x : α) :
    r.state.visited x = true ↔ earlier.visited x = true ∨ x ∈ g.reachable starts := by
  obtain ⟨hi, hf, -⟩ := invariant_search? h hr
  have hl := hi.coherent.layers
  rw [hf] at hl
  have hst : r.state.stack = [] := hl
  rw [← finished_search? h hr x, ← hi.recorded.finished x, hst]
  exact (and_iff_left List.not_mem_nil).symm

end Digraph

end TypeAlias
