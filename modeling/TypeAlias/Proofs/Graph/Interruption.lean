import TypeAlias.Proofs.Graph.Clients
import TypeAlias.Proofs.Graph.Stages

/-!
# A search that is broken off

A client who gives up breaks a search off right after a component has been taken off the stack, with
any number of frames still open. Up to then the search has gone the way it goes for a client who
never gives up. So what has been handed over is a beginning of what would have been, and the
bookkeeping is that of a search under way.
-/

namespace TypeAlias

variable {α σ ε : Type} [DecidableEq α]

/-! ## A search for a client -/

namespace Serving

variable {g : Digraph α} {client : Client (Moment α) σ ε} {starts : List α} {memory : σ}
  {v w : Serving α σ ε} {x : α}

/-- A search for a client after a number of moves. -/
def after (g : Digraph α) (client : Client (Moment α) σ ε) (starts : List α) (memory : σ)
    (k : Nat) : Serving α σ ε :=
  (next g client)^[k] { search := {}, todo := starts, memory }

theorem after_succ (g : Digraph α) (client : Client (Moment α) σ ε) (starts : List α) (memory : σ)
    (k : Nat) :
    after g client starts memory (k + 1) = (after g client starts memory k).next g client :=
  Function.iterate_succ_apply' _ _ _

theorem next_of_failed {e : ε} (h : v.failure? = some e) : v.next g client = v := by
  rw [next, h]

theorem next_of_finished {below : List (Frame α)} (hn : v.failure? = none)
    (hf : v.search.frames = ⟨x, []⟩ :: below) :
    v.next g client = { v with search := { v.search with frames := below } }.leave client x := by
  rw [next, hn, hf]

theorem next_of_other (hn : v.failure? = none)
    (hf : ∀ x below, v.search.frames ≠ ⟨x, []⟩ :: below) :
    v.next g client = { v with toTour := v.toTour.next g } := by
  unfold next
  split
  · next he => cases he.symm.trans hn
  · next he => exact absurd he (hf _ _)
  · rfl

theorem next_of_halted (h : v.halted = true) : v.next g client = v := by
  cases hv : v.failure? with
  | some e => exact next_of_failed hv
  | none =>
    rw [halted, hv] at h
    have ht : v.toTour.halted = true := h
    rw [next_of_other hv, Tour.next_of_halted g ht]
    intro x below hf
    rw [Tour.halted, hf] at ht
    cases ht

/-- A client is handed one component or none. -/
inductive Hands (client : Client (Moment α) σ ε) (v w : Serving α σ ε) : Prop where
  | nothing : w.search.handed = v.search.handed → w.memory = v.memory → w.failure? = none →
      Hands client v w
  | component (m : Moment α) : w.search.handed = v.search.handed ++ [m] →
      client.receive m v.memory = (w.memory, w.failure?) → Hands client v w

omit [DecidableEq α] in
/-- What has been handed over and the memory before matter. -/
theorem Hands.congr {u : Serving α σ ε} (h : Hands client v w)
    (hh : u.search.handed = v.search.handed) (hm : u.memory = v.memory) : Hands client u w := by
  cases h with
  | nothing hw hmw hf => exact .nothing (hw.trans hh.symm) (hmw.trans hm.symm) hf
  | component m hw hr =>
    rw [← hh] at hw
    rw [← hm] at hr
    exact .component m hw hr

theorem hands_complete (hn : v.failure? = none) (x : α) :
    Hands client v (v.complete client x) := by
  unfold complete
  match v.search.state.pop x with
  | (none, _) => exact .nothing rfl rfl hn
  | (some c, state) => exact .component ⟨.emitted c, state⟩ (Search.handed_of_emitted rfl) rfl

theorem hands_leave (hn : v.failure? = none) (x : α) : Hands client v (v.leave client x) := by
  have hp : v.search.handed = (v.search.passDown x).handed :=
    (Search.handed_of_trace (Search.trace_passDown _ _)).symm
  unfold leave
  dsimp only
  split
  · exact (hands_complete (v := { v with search := v.search.passDown x }) hn x).congr hp rfl
  · exact .nothing hp.symm rfl hn

/-- A move hands over a component or nothing. -/
theorem hands_next (hn : v.failure? = none) : Hands client v (v.next g client) := by
  by_cases hf : ∃ x below, v.search.frames = ⟨x, []⟩ :: below
  · obtain ⟨x, below, hf⟩ := hf
    rw [next_of_finished hn hf]
    exact (hands_leave (v := { v with search := { v.search with frames := below } }) hn x).congr
      rfl rfl
  · have hf' : ∀ x below, v.search.frames ≠ ⟨x, []⟩ :: below := fun x below he =>
      hf ⟨x, below, he⟩
    rw [next_of_other hn hf']
    exact .nothing (Tour.handed_next hf') rfl hn

/-- What the client makes of all that it has been handed. -/
structure Heard (client : Client (Moment α) σ ε) (memory : σ) (v : Serving α σ ε) : Prop where
  taken : v.failure? = none → client.tell v.search.handed memory = (v.memory, none)
  refused : ∀ e, v.failure? = some e → client.Refuses v.search.handed memory v.memory e

theorem Heard.next (h : v.Heard client memory) : (v.next g client).Heard client memory := by
  cases hn : v.failure? with
  | some e =>
    rw [next_of_failed hn]
    exact h
  | none =>
    have ht := h.taken hn
    have hnext : Hands client v (v.next g client) := hands_next hn
    rcases hnext with ⟨hh, hm, hf⟩ | ⟨m, hh, hr⟩
    · constructor
      · intro _
        rw [hh, hm]
        exact ht
      · intro e he
        cases hf.symm.trans he
    · constructor
      · intro hf
        rw [hh, Client.tell_concat ht, hr, hf]
      · intro e he
        rw [he] at hr
        exact ⟨_, m, _, hh, ht, hr⟩

theorem heard_after (g : Digraph α) (client : Client (Moment α) σ ε) (starts : List α) (memory : σ)
    (k : Nat) : (after g client starts memory k).Heard client memory := by
  induction k with
  | zero => exact ⟨fun _ => rfl, fun e he => nomatch he⟩
  | succ k ih =>
    rw [after_succ]
    exact ih.next

/-- The search has gone as it goes without a client, up to where the client gave up. -/
theorem exists_stage (g : Digraph α) (client : Client (Moment α) σ ε) (starts : List α)
    (memory : σ) (k : Nat) :
    ∃ j ≤ k, (after g client starts memory k).toTour = Tour.stage g starts j ∧
      ((after g client starts memory k).failure? = none → j = k) := by
  induction k with
  | zero => exact ⟨0, Nat.le_refl _, rfl, fun _ => rfl⟩
  | succ k ih =>
    obtain ⟨j, hj, ht, hk⟩ := ih
    rw [after_succ]
    cases hn : (after g client starts memory k).failure? with
    | some e =>
      rw [next_of_failed hn, hn]
      exact ⟨j, by omega, ht, fun he => nomatch he⟩
    | none =>
      obtain rfl := hk hn
      refine ⟨j + 1, Nat.le_refl _, ?_, fun _ => rfl⟩
      rw [toTour_next g client hn, ht, Tour.stage_succ]

/-- A run goes on until it halts. -/
theorem run?_eq_some_iff : run? g client v = some w ↔
    w.halted = true ∧ ∃ k, (next g client)^[k] v = w := by
  constructor
  · intro hr
    apply run?.partial_correctness g client
      (fun v w => w.halted = true ∧ ∃ k, (next g client)^[k] v = w) _ v w hr
    intro run ih v w hr
    split at hr
    · next hh =>
      cases hr
      exact ⟨hh, 0, rfl⟩
    · obtain ⟨hh, k, hk⟩ := ih _ _ hr
      exact ⟨hh, k + 1, hk⟩
  · rintro ⟨hh, k, hk⟩
    induction k generalizing v with
    | zero =>
      obtain rfl : v = w := hk
      rw [run?, if_pos hh]
    | succ k ih =>
      rw [run?]
      split
      · next hv =>
        rw [Function.iterate_fixed (next_of_halted hv)] at hk
        rw [hk]
      · exact ih hk

/-- A search for a client who gives up at what is handed over ends with the failure. -/
theorem serve?_of_tell {k : Nat} {m : σ} {e : ε}
    (h : client.tell (Tour.stage g starts k).search.handed memory = (m, some e)) :
    ∃ v, g.serve? client starts memory = some v ∧ v.failure? = some e ∧ v.memory = m := by
  have hheard := heard_after g client starts memory k
  obtain ⟨j, hj, ht, hk⟩ := exists_stage g client starts memory k
  cases hn : (after g client starts memory k).failure? with
  | none =>
    obtain rfl := hk hn
    have htaken := hheard.taken hn
    rw [ht, h] at htaken
    cases htaken
  | some e' =>
    have hrefused := (hheard.refused e' hn).tell
    rw [ht] at hrefused
    have hlonger := Client.tell_of_isPrefix (Tour.handed_stage hj) hrefused
    rw [h] at hlonger
    cases hlonger
    refine ⟨after g client starts memory k, run?_eq_some_iff.mpr ⟨?_, k, rfl⟩, hn, rfl⟩
    rw [halted, hn]
    rfl

/-- What is left of a search for a client: a stage of the search, and a client who has been handed
the components completed. -/
theorem of_serve? (h : g.serve? client starts memory = some v) :
    v.Heard client memory ∧ ∃ k, v.toTour = Tour.stage g starts k := by
  obtain ⟨-, k, rfl⟩ := run?_eq_some_iff.mp h
  obtain ⟨j, -, ht, -⟩ := exists_stage g client starts memory k
  exact ⟨heard_after g client starts memory k, j, ht⟩

end Serving

/-! ## What is handed over when nobody gives up -/

namespace Digraph

/-- The components handed to a client who never gives up, in a number of moves. -/
def componentsOut (g : Digraph α) (starts : List α) (k : Nat) : List (List α) :=
  (Serving.after g (Client.keeping none).ofComponents starts [] k).memory

/-- The nodes handed to a client who never gives up, in a number of moves. -/
def nodesOut (g : Digraph α) (starts : List α) (k : Nat) : List α :=
  (Serving.after g (Client.keeping none).ofNodes starts [] k).memory

variable {g : Digraph α} {starts : List α}

theorem componentsOut_eq (g : Digraph α) (starts : List α) :
    g.componentsOut starts = fun k => Trace.components (Tour.stage g starts k).search.handed := by
  funext k
  have hheard := Serving.heard_after g (Client.keeping none).ofComponents starts [] k
  obtain ⟨j, -, ht, hk⟩ :=
    Serving.exists_stage g (Client.keeping none).ofComponents starts [] k
  unfold componentsOut
  generalize Serving.after g (Client.keeping none).ofComponents starts [] k = v at *
  cases hn : v.failure? with
  | some e =>
    have hr := (hheard.refused e hn).of_components.tell
    rw [Client.tell_keeping_none] at hr
    exact nomatch (Prod.mk.inj hr).2
  | none =>
    obtain rfl := hk hn
    have htaken := hheard.taken hn
    rw [ht, Client.tell_ofComponents, Client.tell_keeping_none] at htaken
    exact (Prod.mk.inj htaken).1.symm

theorem nodesOut_eq (g : Digraph α) (starts : List α) :
    g.nodesOut starts = fun k => (Trace.deliver (Tour.stage g starts k).search.handed).1 := by
  funext k
  have hheard := Serving.heard_after g (Client.keeping none).ofNodes starts [] k
  obtain ⟨j, hj, ht, hk⟩ := Serving.exists_stage g (Client.keeping none).ofNodes starts [] k
  unfold nodesOut
  generalize Serving.after g (Client.keeping none).ofNodes starts [] k = v at *
  match hn : v.failure? with
  | some (.refused e) =>
    have hr := (hheard.refused _ hn).of_nodes.tell
    rw [Client.tell_keeping_none] at hr
    exact nomatch (Prod.mk.inj hr).2
  | some (.cyclic d) =>
    obtain ⟨htell, hcycle⟩ := Client.tell_ofNodes_eq_cyclic_iff.mp (hheard.refused _ hn).tell
    rw [Client.tell_keeping_none] at htell
    rw [ht] at htell hcycle
    rw [Trace.deliver_of_isPrefix (Tour.handed_stage hj) hcycle]
    exact (Prod.mk.inj htell).1.symm
  | none =>
    obtain rfl := hk hn
    have htell := (Client.tell_ofNodes_eq_none_iff.mp (hheard.taken hn)).1
    rw [ht, Client.tell_keeping_none] at htell
    exact (Prod.mk.inj htell).1.symm

end Digraph

/-- A list is what has been handed out after some number of moves, and a beginning of all that is
handed out in ever more of them. -/
def IsBeginning {β : Type} (out : Nat → List β) (handed : List β) : Prop :=
  (∃ k, out k = handed) ∧ ∀ k, handed <+: out k ∨ out k <+: handed

/-- What is handed out is all of a list in the end, and nothing else. -/
def Exhausts {β : Type} (out : Nat → List β) (all : List β) : Prop :=
  (∃ k, out k = all) ∧ ∀ k, out k <+: all

theorem Exhausts.eq_take {β : Type} {out : Nat → List β} {all : List β} (h : Exhausts out all)
    (k : Nat) : out k = all.take (out k).length :=
  List.prefix_iff_eq_take.mp (h.2 k)

namespace Tour

variable {β : Type} {g : Digraph α} {starts : List α} {out : Trace α → List β}

/-- Of what grows with the components completed, every stage has a beginning. -/
theorem isBeginning_stage (ho : ∀ t u, t <+: u → out t <+: out u) (k : Nat) :
    IsBeginning (fun k => out (stage g starts k).search.handed)
      (out (stage g starts k).search.handed) := by
  refine ⟨⟨k, rfl⟩, fun j => ?_⟩
  rcases Nat.le_total k j with hkj | hjk
  · exact Or.inl (ho _ _ (handed_stage hkj))
  · exact Or.inr (ho _ _ (handed_stage hjk))

/-- And it is all there in the end, if there is an end. -/
theorem exhausts_stage (ho : ∀ t u, t <+: u → out t <+: out u) {r : Search α}
    (hr : g.search? starts = some r) :
    Exhausts (fun k => out (stage g starts k).search.handed) (out r.handed) := by
  constructor
  · obtain ⟨k, hk, -⟩ := exists_stage_of_search? hr
    refine ⟨k, ?_⟩
    dsimp only
    rw [hk]
  · exact fun k => ho _ _ (handed_stage_of_search? hr k)

end Tour

/-- The bookkeeping of a search that has been broken off when some components had been handed over:
the nodes reached are in these components or on the stack. -/
structure SearchState.BrokenOff (s : SearchState α) (handed : List (List α)) : Prop where
  onStack_iff : ∀ x, x ∈ s.onStack ↔ x ∈ s.stack
  nodup : s.stack.Nodup
  sorted : s.stack.reverse.Pairwise fun x y => s.index x < s.index y
  mem_stack_iff : ∀ x, x ∈ s.stack ↔ s.visited x = true ∧ x ∉ handed.flatten

namespace Tour

variable {g : Digraph α} {starts : List α}

theorem Invariant.brokenOff {t : Tour α} (h : t.Invariant g starts) :
    t.search.state.BrokenOff (Trace.components t.search.handed) := by
  have hc := h.search.coherent
  constructor
  case onStack_iff => exact hc.onStack_iff
  case nodup => exact hc.stack_nodup
  case sorted => exact List.pairwise_reverse.mpr hc.sorted
  case mem_stack_iff =>
    intro x
    have hfinished := h.search.recorded.finished x
    rw [Search.components_handed, Trace.mem_flatten_reverse]
    constructor
    · intro hx
      exact ⟨hc.visited x hx, fun hm => (hfinished.mpr (Or.inr hm)).2 hx⟩
    · rintro ⟨hv, hm⟩
      by_contra hx
      rcases hfinished.mp ⟨hv, hx⟩ with he | he
      · exact Bool.false_ne_true he
      · exact hm he

end Tour

namespace Digraph

variable {g : Digraph α} {starts : List α}

theorem isBeginning_componentsOut (g : Digraph α) (starts : List α) (k : Nat) :
    IsBeginning (g.componentsOut starts) (g.componentsOut starts k) := by
  rw [componentsOut_eq]
  exact Tour.isBeginning_stage (fun _ _ h => h.filterMap _) k

theorem isBeginning_nodesOut (g : Digraph α) (starts : List α) (k : Nat) :
    IsBeginning (g.nodesOut starts) (g.nodesOut starts k) := by
  rw [nodesOut_eq]
  exact Tour.isBeginning_stage (fun _ _ h => Trace.deliver_isPrefix h) k

theorem exhausts_componentsOut {all : List (List α)} (h : g.components? starts = some all) :
    Exhausts (g.componentsOut starts) all := by
  obtain ⟨t, ht, rfl⟩ := Option.map_eq_some_iff.mp h
  obtain ⟨r, hr, rfl⟩ := Option.map_eq_some_iff.mp ht
  rw [componentsOut_eq, ← r.components_handed]
  exact Tour.exhausts_stage (fun _ _ h => h.filterMap _) hr

theorem exhausts_nodesOut {all : List α} (h : g.delivered? starts = some all) :
    Exhausts (g.nodesOut starts) all := by
  obtain ⟨t, ht, rfl⟩ := Option.map_eq_some_iff.mp h
  obtain ⟨r, hr, rfl⟩ := Option.map_eq_some_iff.mp ht
  rw [nodesOut_eq, Trace.acyclicNodes, ← r.deliver_handed]
  exact Tour.exhausts_stage (fun _ _ h => Trace.deliver_isPrefix h) hr

/-- How a search ends for a client of nodes who has been handed some. When a cycle stands in the
way, it does so for a client who never gives up, too, who has then been handed the same. -/
def EndsFor (g : Digraph α) (starts : List α) (client : Client α σ ε) (memory : σ) (nodes : List α)
    (m : σ) : Option (OrderFailure α ε) → Prop
  | none => client.tell nodes memory = (m, none)
  | some (.refused e) => client.Refuses nodes memory m e
  | some (.cyclic d) => client.tell nodes memory = (m, none) ∧
      ∃ w, g.serve? (Client.keeping none).ofNodes starts [] = some w ∧
        w.failure? = some (.cyclic d) ∧ w.memory = nodes

/-- A client of components who has given up has been handed a beginning. -/
theorem brokenOff_of_serve? {client : Client (List α) σ ε} {memory : σ} {v : Serving α σ ε} {e : ε}
    (h : g.serve? client.ofComponents starts memory = some v) (he : v.failure? = some e) :
    ∃ k, client.Refuses (g.componentsOut starts k) memory v.memory e ∧
      v.search.state.BrokenOff (g.componentsOut starts k) := by
  obtain ⟨hheard, k, ht⟩ := Serving.of_serve? h
  have hr := (hheard.refused e he).of_components
  have hb := (Tour.invariant_stage g starts k).brokenOff
  rw [← ht] at hb
  refine ⟨k, ?_⟩
  rw [componentsOut_eq]
  dsimp only
  rw [← ht]
  exact ⟨hr, hb⟩

/-- A client of nodes has been handed a beginning, however the search ends. -/
theorem endsFor_of_serve? {client : Client α σ ε} {memory : σ} {v : Serving α σ (OrderFailure α ε)}
    (h : g.serve? client.ofNodes starts memory = some v) :
    ∃ k, g.EndsFor starts client memory (g.nodesOut starts k) v.memory v.failure? := by
  obtain ⟨hheard, k, ht⟩ := Serving.of_serve? h
  refine ⟨k, ?_⟩
  rw [nodesOut_eq]
  dsimp only
  rw [← ht]
  match hn : v.failure? with
  | none => exact (Client.tell_ofNodes_eq_none_iff.mp (hheard.taken hn)).1
  | some (.refused e) => exact (hheard.refused _ hn).of_nodes
  | some (.cyclic d) =>
    obtain ⟨htell, hcycle⟩ := Client.tell_ofNodes_eq_cyclic_iff.mp (hheard.refused _ hn).tell
    refine ⟨htell, ?_⟩
    apply Serving.serve?_of_tell (k := k)
    rw [← ht]
    exact Client.tell_ofNodes_eq_cyclic_iff.mpr ⟨Client.tell_keeping_none _ [], hcycle⟩

end Digraph

/-- Breaking a search off. A client who never gives up is handed all components in the end, if the
search ends. A client who gives up does so at the last of the components it has been handed, which
are a beginning of those; the search ends with its failure; and the nodes reached are on the stack,
by increasing index, unless they are in these components. A client who would give up at one of the
components does so. A client of nodes has been handed a beginning of the nodes, too, whether it has
given up, a cycle has stood in the way, or neither; and if it would give up at one of the nodes, it
does so. -/
theorem Digraph.serve?_brokenOff {τ : Type} (g : Digraph α) (starts : List α)
    (client : Client (List α) σ ε) (memory : σ) (taker : Client α τ ε) (memory' : τ) :
    (∀ all, g.components? starts = some all → Exhausts (g.componentsOut starts) all) ∧
    (∀ v e, g.serve? client.ofComponents starts memory = some v → v.failure? = some e →
      ∃ handed, client.Refuses handed memory v.memory e ∧
        IsBeginning (g.componentsOut starts) handed ∧
        (∀ all, g.components? starts = some all → handed = all.take handed.length) ∧
        v.search.state.BrokenOff handed) ∧
    (∀ k m e, client.tell (g.componentsOut starts k) memory = (m, some e) →
      ∃ v, g.serve? client.ofComponents starts memory = some v ∧ v.failure? = some e ∧
        v.memory = m) ∧
    (∀ all, g.delivered? starts = some all → Exhausts (g.nodesOut starts) all) ∧
    (∀ v, g.serve? taker.ofNodes starts memory' = some v →
      ∃ nodes, g.EndsFor starts taker memory' nodes v.memory v.failure? ∧
        IsBeginning (g.nodesOut starts) nodes ∧
        ∀ all, g.delivered? starts = some all → nodes = all.take nodes.length) ∧
    ∀ k m e, taker.tell (g.nodesOut starts k) memory' = (m, some e) →
      ∃ v, g.serve? taker.ofNodes starts memory' = some v ∧ v.failure? = some (.refused e) ∧
        v.memory = m := by
  refine ⟨fun all => exhausts_componentsOut, ?_, ?_, fun all => exhausts_nodesOut, ?_, ?_⟩
  · intro v e hv he
    obtain ⟨k, hr, hb⟩ := brokenOff_of_serve? hv he
    refine ⟨_, hr, isBeginning_componentsOut g starts k, fun all hall => ?_, hb⟩
    exact (exhausts_componentsOut hall).eq_take k
  · intro k m e ht
    apply Serving.serve?_of_tell (k := k)
    rw [componentsOut_eq] at ht
    rw [Client.tell_ofComponents]
    exact ht
  · intro v hv
    obtain ⟨k, hends⟩ := endsFor_of_serve? hv
    refine ⟨_, hends, isBeginning_nodesOut g starts k, fun all hall => ?_⟩
    exact (exhausts_nodesOut hall).eq_take k
  · intro k m e ht
    apply Serving.serve?_of_tell (k := k)
    rw [nodesOut_eq] at ht
    rw [Client.tell_ofNodes, ht]

theorem Digraph.serve?_brokenOff_twoCycles :
    (∃ v, twoCycles.serve? (Client.keeping (some 2)).ofComponents [1] [] = some v ∧
      v.failure? = some () ∧ v.memory = [[7], [5, 6]] ∧
      ∃ handed, (Client.keeping (some 2)).Refuses handed [] v.memory () ∧
        v.search.state.BrokenOff handed) ∧
    ∃ v, twoCycles.serve? (Client.keeping (some 1)).ofNodes [1] [] = some v ∧
      v.failure? = some (.refused ()) ∧ v.memory = [7] ∧
      ∃ nodes, twoCycles.EndsFor [1] (Client.keeping (some 1)) [] nodes [7]
        (some (.refused ())) := by
  obtain ⟨-, hcomponents, hgivesUp, -, hnodes, hrefuses⟩ := serve?_brokenOff twoCycles.toDigraph [1]
    (Client.keeping (some 2)) [] (Client.keeping (some 1)) []
  constructor
  · obtain ⟨v, hv, he, hm⟩ := hgivesUp 16 [[7], [5, 6]] () (by decide)
    obtain ⟨handed, hr, -, -, hb⟩ := hcomponents v () hv he
    exact ⟨v, hv, he, hm, handed, hr, hb⟩
  · obtain ⟨v, hv, he, hm⟩ := hrefuses 16 [7] () (by decide)
    obtain ⟨nodes, hends, -, -⟩ := hnodes v hv
    rw [he, hm] at hends
    exact ⟨v, hv, he, hm, nodes, hends⟩

end TypeAlias
