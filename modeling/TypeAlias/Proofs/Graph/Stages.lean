import TypeAlias.Graph.Client
import TypeAlias.Proofs.Graph.Discovery

/-!
# The stages of a search

A search from several nodes in turn, one move after the other, whether or not it will end. Its trace
only grows, the invariant holds at every stage, and a search that ends is the last of its stages.
-/

namespace TypeAlias

variable {α : Type}

/-! ## What has been completed -/

namespace Search

/-- The completions of components, in order, with the bookkeeping right after each. -/
def handed (s : Search α) : Trace α :=
  s.trace.reverse.filter fun m => m.emitted?.isSome

variable {s t : Search α}

theorem handed_of_trace (h : t.trace = s.trace) : t.handed = s.handed := by
  rw [handed, h, handed]

theorem handed_of_reached {x : α} {state : SearchState α}
    (h : t.trace = ⟨.reached x, state⟩ :: s.trace) : t.handed = s.handed := by
  rw [handed, h, List.reverse_cons, List.filter_append]
  exact List.append_nil _

theorem handed_of_emitted {c : List α} {state : SearchState α}
    (h : t.trace = ⟨.emitted c, state⟩ :: s.trace) :
    t.handed = s.handed ++ [⟨.emitted c, state⟩] := by
  rw [handed, h, List.reverse_cons, List.filter_append]
  rfl

theorem handed_isPrefix (h : s.trace <:+ t.trace) : s.handed <+: t.handed :=
  (List.reverse_prefix.mpr h).filter _

theorem components_handed (s : Search α) :
    Trace.components s.handed = Trace.components s.trace.reverse := by
  rw [handed, Trace.components, List.filterMap_filter, Trace.components]
  congr 1
  funext m
  cases m.emitted? <;> rfl

variable [DecidableEq α] {g : Digraph α}

/-- Nothing is delivered but at the completion of a component. -/
theorem deliver_handed (s : Search α) : Trace.deliver s.handed = Trace.deliver s.trace.reverse := by
  unfold handed
  induction s.trace.reverse with
  | nil => rfl
  | cons m t ih =>
    cases he : m.emitted? with
    | none =>
      have hc : m.cycle? = none := by rw [Moment.cycle?, he, Option.filter_none]
      rw [List.filter_cons_of_neg (by simp [he]), ih, Trace.deliver, hc, he]
      rfl
    | some c => rw [List.filter_cons_of_pos (by simp [he]), Trace.deliver, ih, Trace.deliver]

/-- A step adds to the trace. -/
theorem trace_step (g : Digraph α) (s : Search α) : s.trace <:+ (s.step g).trace := by
  rcases s.step_cases g with ⟨_, _, _, _, _, _, _, _, ht⟩ | ⟨_, _, _, ht | ht⟩
  · rw [ht]
    exact List.suffix_cons _ _
  · rw [ht]
  · rw [ht]
    exact List.suffix_cons _ _

/-- Nothing is completed but by leaving a node. -/
theorem handed_step (h : ∀ x below, s.frames ≠ ⟨x, []⟩ :: below) :
    (s.step g).handed = s.handed := by
  match hf : s.frames with
  | [] => rw [step_of_ended g hf]
  | ⟨x, []⟩ :: below => exact absurd hf (h x below)
  | ⟨x, y :: rest⟩ :: below =>
    cases hv : s.state.visited y with
    | true =>
      rw [step_of_visited g hf hv]
      rfl
    | false =>
      rw [step_of_not_visited g hf hv]
      exact handed_of_reached rfl

end Search

/-! ## One move and all of them -/

namespace Tour

variable [DecidableEq α] {g : Digraph α} {starts : List α} {t : Tour α}

/-- A search from some nodes in turn after a number of moves. -/
def stage (g : Digraph α) (starts : List α) (k : Nat) : Tour α :=
  (next g)^[k] { search := {}, todo := starts }

theorem stage_succ (g : Digraph α) (starts : List α) (k : Nat) :
    stage g starts (k + 1) = (stage g starts k).next g :=
  Function.iterate_succ_apply' _ _ _

/-- A move is a step, or goes on to the next start node. -/
theorem next_cases (g : Digraph α) (t : Tour α) :
    t.next g = { t with search := t.search.step g } ∨
      ∃ start todo, t.search.frames = [] ∧ t.todo = start :: todo ∧
        (t.next g = { t with todo } ∨ t.search.state.visited start = false ∧
          t.next g = { search := t.search.descend g start, todo }) := by
  by_cases hf : t.search.frames = []
  · match ht : t.todo with
    | [] =>
      left
      rw [next, hf, ht]
    | start :: todo =>
      refine Or.inr ⟨start, todo, hf, rfl, ?_⟩
      rw [next_of_start g hf ht]
      cases t.search.state.visited start with
      | true => exact Or.inl rfl
      | false => exact Or.inr ⟨rfl, rfl⟩
  · exact Or.inl (next_of_open g hf)

/-- A move adds to the trace. -/
theorem trace_next (g : Digraph α) (t : Tour α) : t.search.trace <:+ (t.next g).search.trace := by
  rcases t.next_cases g with he | ⟨_, _, _, _, he | ⟨_, he⟩⟩
  · rw [he]
    exact t.search.trace_step g
  · rw [he]
  · rw [he]
    exact List.suffix_cons _ _

/-- Nothing is completed but by leaving a node. -/
theorem handed_next (h : ∀ x below, t.search.frames ≠ ⟨x, []⟩ :: below) :
    (t.next g).search.handed = t.search.handed := by
  rcases t.next_cases g with he | ⟨_, _, _, _, he | ⟨_, he⟩⟩
  · rw [he]
    exact Search.handed_step h
  · rw [he]
  · rw [he]
    exact Search.handed_of_reached rfl

theorem trace_stage {j k : Nat} (h : j ≤ k) :
    (stage g starts j).search.trace <:+ (stage g starts k).search.trace := by
  induction h with
  | refl => exact List.suffix_rfl
  | step _ ih =>
    rw [stage_succ]
    exact ih.trans (trace_next g _)

theorem handed_stage {j k : Nat} (h : j ≤ k) :
    (stage g starts j).search.handed <+: (stage g starts k).search.handed :=
  Search.handed_isPrefix (trace_stage h)

/-- The invariant of the search, from start nodes that are among those given. -/
structure Invariant (g : Digraph α) (starts : List α) (t : Tour α) : Prop where
  search : t.search.Invariant g {} starts
  todo : ∀ x ∈ t.todo, x ∈ starts

theorem Invariant.next (h : t.Invariant g starts) : (t.next g).Invariant g starts := by
  rcases t.next_cases g with he | ⟨start, todo, hf, ht, hnext⟩
  · rw [he]
    exact ⟨h.search.step, h.todo⟩
  · have hm := h.todo
    rw [ht] at hm
    have htodo : ∀ x ∈ todo, x ∈ starts := fun x hx => hm x (List.mem_cons_of_mem _ hx)
    rcases hnext with he | ⟨hv, he⟩
    · rw [he]
      exact ⟨h.search, htodo⟩
    · rw [he]
      have hstart := Digraph.mem_reachable_of_mem (g := g) (hm start List.mem_cons_self)
      exact ⟨h.search.descend hf hv hstart, htodo⟩

theorem invariant_stage (g : Digraph α) (starts : List α) (k : Nat) :
    (stage g starts k).Invariant g starts := by
  induction k with
  | zero => exact ⟨Search.Invariant.initial (Coherent.initial g) starts, fun x hx => hx⟩
  | succ k ih =>
    rw [stage_succ]
    exact ih.next

theorem iterate_of_run? {s r : Search α} (hr : s.run? g = some r) (todo : List α) :
    ∃ k, (next g)^[k] { search := s, todo } = { search := r, todo } := by
  apply Search.run?.partial_correctness g
    (fun s r => ∃ k, (next g)^[k] { search := s, todo } = { search := r, todo }) _ s r hr
  intro run ih s r hr
  split at hr
  · cases hr
    exact ⟨0, rfl⟩
  · next hf =>
    obtain ⟨k, hk⟩ := ih _ _ hr
    refine ⟨k + 1, ?_⟩
    rw [Function.iterate_succ_apply, next_of_open g (by simpa using hf)]
    exact hk

theorem iterate_of_visit? {s r : Search α} {start : α} (hf : s.frames = [])
    (hr : s.visit? g start = some r) (todo : List α) :
    (∃ k, (next g)^[k] { search := s, todo := start :: todo } = { search := r, todo }) ∧
      r.frames = [] := by
  have hnext := next_of_start g (t := { search := s, todo := start :: todo }) hf rfl
  unfold Search.visit? at hr
  split at hr
  · next hv =>
    cases hr
    rw [if_pos hv] at hnext
    exact ⟨⟨1, hnext⟩, hf⟩
  · next hv =>
    obtain ⟨k, hk⟩ := iterate_of_run? hr todo
    rw [if_neg hv] at hnext
    refine ⟨⟨k + 1, ?_⟩, Search.frames_run? hr⟩
    rw [Function.iterate_succ_apply, hnext]
    exact hk

/-- A search that ends is halted at some stage. -/
theorem exists_stage_of_search? {r : Search α} (hr : g.search? starts = some r) :
    ∃ k, stage g starts k = { search := r, todo := [] } ∧ (stage g starts k).halted = true := by
  have reach (todo : List α) (s : Search α) (hf : s.frames = [])
      (hr : todo.foldlM (Search.visit? g) s = some r) :
      ∃ k, (next g)^[k] { search := s, todo } = { search := r, todo := [] } ∧ r.frames = [] := by
    induction todo generalizing s with
    | nil =>
      cases hr
      exact ⟨0, rfl, hf⟩
    | cons start todo ih =>
      rw [List.foldlM_cons] at hr
      obtain ⟨s', hv, hr⟩ := Option.bind_eq_some_iff.mp hr
      obtain ⟨⟨j, hj⟩, hf'⟩ := iterate_of_visit? hf hv todo
      obtain ⟨k, hk, hrf⟩ := ih s' hf' hr
      refine ⟨k + j, ?_, hrf⟩
      rw [Function.iterate_add_apply, hj, hk]
  obtain ⟨k, hk, hf⟩ := reach starts {} rfl hr
  refine ⟨k, hk, ?_⟩
  rw [stage, hk, halted, hf]
  rfl

/-- At every stage a beginning of the components has been completed. -/
theorem handed_stage_of_search? {r : Search α} (hr : g.search? starts = some r) (j : Nat) :
    (stage g starts j).search.handed <+: r.handed := by
  obtain ⟨k, hk, hh⟩ := exists_stage_of_search? hr
  have hle : (stage g starts j).search.handed <+: (stage g starts k).search.handed := by
    rcases Nat.le_total j k with hj | hj
    · exact handed_stage hj
    · obtain ⟨i, rfl⟩ := Nat.exists_eq_add_of_le' hj
      have hfix : stage g starts (i + k) = stage g starts k := by
        rw [stage, Function.iterate_add_apply]
        exact Function.iterate_fixed (next_of_halted g hh) i
      rw [hfix]
  rwa [hk] at hle

end Tour

end TypeAlias
