import TypeAlias.Proofs.Dependencies.Closure
import TypeAlias.Proofs.Graph.Components

/-!
# Following a search

A query that needs an alias closed follows a search through the aliases that are still open. At
every moment of the search, what has been closed before and what has been completed since is closed,
and it agrees with the definitions read. So it is left when a definition turns out to be missing.
-/

namespace TypeAlias.Dependencies

variable {env : Environment} {d d' d₀ : Dependencies} {n m : TypeName}

/-- More definitions have been read, and no more than that has happened. -/
structure Grows (d d' : Dependencies) : Prop where
  guarded : d'.guarded = d.guarded
  reached : d'.reached = d.reached
  cycles : d'.cycles = d.cycles
  direct : ∀ n ∈ d.direct.keys, d'.direct.get? n = d.direct.get? n

theorem Invariant.grows (h : Invariant d) (hg : Grows d d') : Invariant d' :=
  h.grow hg.reached hg.cycles hg.direct

theorem Grows.refl (d : Dependencies) : Grows d d :=
  ⟨rfl, rfl, rfl, fun _ _ => rfl⟩

theorem Grows.mem_direct (h : Grows d d') (hn : n ∈ d.direct.keys) : n ∈ d'.direct.keys := by
  obtain ⟨deps, hd⟩ := Table.mem_keys_iff_get?.mp hn
  exact Table.mem_keys_iff_get?.mpr ⟨deps, (h.direct n hn).trans hd⟩

/-- Reading the definition of an alias, in each of the ways this can go. -/
theorem readDirect_cases (env : Environment) (d : Dependencies) (n : TypeName) :
    (∃ deps, d.direct.get? n = some deps ∧ d.readDirect env n = (.ok deps, d)) ∨
    (n ∉ d.direct.keys ∧ ∃ e, env.aliasDecl n = .error e ∧ d.readDirect env n = (.error e, d)) ∨
    n ∉ d.direct.keys ∧ ∃ decl, env.aliasDecl n = .ok decl ∧
      d.readDirect env n = (.ok (Reading.ofDecl env d.guarded decl).found,
        d.record n decl (Reading.ofDecl env d.guarded decl)) := by
  unfold readDirect
  cases hd : d.direct.get? n with
  | some deps => exact Or.inl ⟨deps, rfl, rfl⟩
  | none =>
    have hn : n ∉ d.direct.keys := Table.get?_eq_none_iff.mp hd
    cases he : env.aliasDecl n with
    | error e => exact Or.inr (Or.inl ⟨hn, e, rfl, rfl⟩)
    | ok decl => exact Or.inr (Or.inr ⟨hn, decl, rfl, rfl⟩)

theorem grows_record {decl : AliasDecl} {r : Reading} (hn : n ∉ d.direct.keys) :
    Grows d (d.record n decl r) := by
  refine ⟨rfl, rfl, rfl, fun m hm => ?_⟩
  show (d.direct.insert n r.found).get? m = _
  rw [Table.get?_insert, if_neg]
  rintro rfl
  exact hn hm

theorem grows_readDirect (env : Environment) (d : Dependencies) (n : TypeName) :
    Grows d (d.readDirect env n).2 := by
  rcases readDirect_cases env d n with ⟨_, _, h⟩ | ⟨_, _, _, h⟩ | ⟨hn, _, _, h⟩
  · rw [h]
    exact Grows.refl d
  · rw [h]
    exact Grows.refl d
  · rw [h]
    exact grows_record hn

/-- A definition that has been read is kept. -/
theorem mem_direct_readDirect {deps : List TypeName} (h : (d.readDirect env n).1 = .ok deps) :
    n ∈ (d.readDirect env n).2.direct.keys := by
  rcases readDirect_cases env d n with ⟨deps, hd, hr⟩ | ⟨_, e, _, hr⟩ | ⟨_, decl, _, hr⟩
  · rw [hr]
    exact Table.mem_keys_iff_get?.mpr ⟨deps, hd⟩
  · rw [hr] at h
    cases h
  · rw [hr]
    exact Table.mem_keys_insert.mpr (Or.inl rfl)

theorem readDirect_error {e : LookupError} (h : (d.readDirect env n).1 = .error e) :
    (d.readDirect env n).2 = d := by
  rcases readDirect_cases env d n with ⟨_, _, hr⟩ | ⟨_, _, _, hr⟩ | ⟨_, _, _, hr⟩
  · rw [hr]
  · rw [hr]
  · rw [hr] at h
    cases h

/-- The definition of a declared alias can be read. -/
theorem readDirect_ok (hn : n ∈ env.aliasNames) :
    (d.readDirect env n).1 = .ok (d.edges env n) := by
  unfold edges
  rcases readDirect_cases env d n with ⟨_, _, hr⟩ | ⟨_, _, he, hr⟩ | ⟨_, _, _, hr⟩
  · rw [hr]
  · obtain ⟨decl, hdecl⟩ := Table.mem_keys_iff_get?.mp hn
    rw [Environment.aliasDecl, hdecl] at he
    cases he
  · rw [hr]

/-- What is found depends on the definitions read before and on the kind of recursion. -/
theorem edges_congr (hd : d'.direct = d.direct) (hg : d'.guarded = d.guarded) (n : TypeName) :
    d'.edges env n = d.edges env n := by
  unfold edges readDirect
  rw [hd, hg]
  cases d.direct.get? n with
  | some deps => rfl
  | none => cases env.aliasDecl n <;> rfl

theorem edges_of_mem (hn : n ∈ d.direct.keys) : d.edges env n = d.cached.succ n := by
  obtain ⟨deps, hd⟩ := Table.mem_keys_iff_get?.mp hn
  rw [succ_cached, edges, readDirect, hd]
  rfl

/-- Reading a definition does not change what is found in any. -/
theorem edges_readDirect (env : Environment) (d : Dependencies) (n m : TypeName) :
    (d.readDirect env n).2.edges env m = d.edges env m := by
  rcases readDirect_cases env d n with ⟨_, _, hr⟩ | ⟨_, _, _, hr⟩ | ⟨hn, decl, he, hr⟩
  · rw [hr]
  · rw [hr]
  · have hg : Grows d (d.readDirect env n).2 := grows_readDirect env d n
    by_cases hmd : m ∈ d.direct.keys
    · rw [edges_of_mem hmd, edges_of_mem (hg.mem_direct hmd), succ_cached, succ_cached,
        hg.direct m hmd]
    · have hm : d.direct.get? m = none := Table.get?_eq_none_iff.mpr hmd
      rw [hr]
      unfold edges readDirect record
      dsimp only
      rw [Table.get?_insert, hm]
      by_cases hmn : m = n
      · rw [if_pos hmn, hmn, he]
      · rw [if_neg hmn]
        cases env.aliasDecl m <;> rfl

theorem grows_tell (d : Dependencies) (notice : Notice) : Grows d (d.tell notice) :=
  ⟨rfl, rfl, rfl, fun _ _ => rfl⟩

theorem edges_tell (env : Environment) (d : Dependencies) (notice : Notice) (n : TypeName) :
    (d.tell notice).edges env n = d.edges env n := by
  have hd : (d.tell notice).direct = d.direct := rfl
  have hg : (d.tell notice).guarded = d.guarded := rfl
  exact edges_congr hd hg n

theorem succ_openGraph_of_mem (hn : n ∈ d.reached.keys) : (d.openGraph env).succ n = [] :=
  if_pos (Table.contains_iff.mpr hn)

theorem succ_openGraph_of_not_mem (hn : n ∉ d.reached.keys) :
    (d.openGraph env).succ n = d.edges env n :=
  if_neg fun h => hn (Table.contains_iff.mp h)

/-- An alias that is reached and open is read. -/
theorem follow_reached {s : SearchState TypeName} (hn : n ∉ d.reached.keys) :
    d.follow env ⟨.reached n, s⟩ =
      ((d.readDirect env n).1.map fun _ => (), (d.readDirect env n).2) := by
  have hc : ¬ d.reached.contains n = true := fun h => hn (Table.contains_iff.mp h)
  unfold follow
  dsimp only
  rw [if_neg hc]
  generalize d.readDirect env n = r
  obtain ⟨r, d'⟩ := r
  cases r <;> rfl

/-- Nothing is read of an alias that is closed. -/
theorem follow_reached_of_mem {s : SearchState TypeName} (hn : n ∈ d.reached.keys) :
    d.follow env ⟨.reached n, s⟩ = (.ok (), d) :=
  if_pos (Table.contains_iff.mpr hn)

/-- A component that was completed and is open is closed. -/
theorem follow_emitted {s : SearchState TypeName} {rest : List TypeName}
    (hn : n ∉ d.reached.keys) :
    d.follow env ⟨.emitted (n :: rest), s⟩ =
      (.ok (), (d.tell (.component (n :: rest))).close (n :: rest)
        (s.isCyclic? (n :: rest) == some true)) :=
  if_neg fun h => hn (Table.contains_iff.mp h)

/-- Nothing is done about a component that is closed. -/
theorem follow_emitted_of_mem {s : SearchState TypeName} {rest : List TypeName}
    (hn : n ∈ d.reached.keys) :
    d.follow env ⟨.emitted (n :: rest), s⟩ = (.ok (), d.tell (.component (n :: rest))) :=
  if_pos (Table.contains_iff.mpr hn)

/-- Closing a component needs nothing that could be missing. -/
theorem follow_emitted_ok {s : SearchState TypeName} {component : List TypeName} :
    (d.follow env ⟨.emitted component, s⟩).1 = .ok () := by
  unfold follow
  dsimp only
  split <;> rfl

theorem followAll_cons_ok {moment : Moment TypeName} {future : Trace TypeName}
    (h : (d.follow env moment).1 = .ok ()) :
    d.followAll env (moment :: future) = (d.follow env moment).2.followAll env future := by
  rw [followAll]
  generalize d.follow env moment = r at h
  obtain ⟨_, d'⟩ := r
  cases h
  rfl

theorem followAll_cons_error {moment : Moment TypeName} {future : Trace TypeName}
    {e : LookupError} (h : (d.follow env moment).1 = .error e) :
    d.followAll env (moment :: future) = (.error e, (d.follow env moment).2) := by
  rw [followAll]
  generalize d.follow env moment = r at h
  obtain ⟨_, d'⟩ := r
  cases h
  rfl

/-- What is known after some moments of a search that began when `d₀` was known. -/
structure Following (env : Environment) (d₀ : Dependencies) (past : Trace TypeName)
    (d : Dependencies) : Prop where
  invariant : Invariant d
  guarded : d.guarded = d₀.guarded
  edges : ∀ n, d.edges env n = d₀.edges env n
  read : ∀ n ∈ past.nodes, n ∈ d.direct.keys
  reached : ∀ n, n ∈ d.reached.keys ↔ n ∈ d₀.reached.keys ∨ n ∈ past.components.flatten

namespace Following

variable {past future : Trace TypeName} {starts : List TypeName} {component : List TypeName}
  {s : SearchState TypeName}

theorem initial (h : Invariant d) : Following env d [] d := by
  constructor
  · exact h
  · rfl
  · exact fun n => rfl
  · exact fun n hn => absurd hn List.not_mem_nil
  · intro n
    show _ ↔ _ ∨ n ∈ []
    simp

theorem tell (h : Following env d₀ past d) (notice : Notice) :
    Following env d₀ past (d.tell notice) := by
  constructor
  · exact h.invariant.grows (grows_tell d notice)
  · exact h.guarded
  · exact fun n => (edges_tell env d notice n).trans (h.edges n)
  · exact h.read
  · exact h.reached

/-- The search sees the edges that have been read. -/
theorem succ_eq (h : Following env d₀ past d) (hn : n ∈ past.nodes) (ho : n ∉ d₀.reached.keys) :
    d.cached.succ n = (d₀.openGraph env).succ n := by
  rw [succ_openGraph_of_not_mem ho, ← h.edges, edges_of_mem (h.read n hn)]

/-- An alias that is reached and open is read. -/
theorem reach (h : Following env d₀ past d) (hg : Grows d d')
    (he : ∀ m, d'.edges env m = d.edges env m) (hn : n ∈ d'.direct.keys) :
    Following env d₀ (past ++ [⟨.reached n, s⟩]) d' := by
  constructor
  · exact h.invariant.grows hg
  · exact hg.guarded.trans h.guarded
  · exact fun m => (he m).trans (h.edges m)
  · intro m hm
    rw [Trace.nodes_append, List.mem_append] at hm
    rcases hm with hm | hm
    · exact hg.mem_direct (h.read m hm)
    · rw [List.mem_singleton.mp hm]
      exact hn
  · intro m
    rw [hg.reached, h.reached, Trace.components_append]
    show _ ↔ _ ∨ m ∈ (past.components ++ []).flatten
    rw [List.append_nil]

/-- Members of a completed component are open when the first one is. -/
theorem members_open (hc : Emission (d₀.openGraph env).toDigraph {} past.reverse component s)
    (hm : m ∈ component) (ho : m ∉ d₀.reached.keys) (hn : n ∈ component) :
    n ∉ d₀.reached.keys := by
  intro hr
  rw [Digraph.Reaches.eq_of_leaf (succ_openGraph_of_mem hr) (hc.connected n hn m hm)] at ho
  exact ho hr

/-- A completed component of open aliases is on top of what is closed. -/
theorem onTop (h : Following env d₀ past d)
    (hs : Sound (d₀.openGraph env).toDigraph {} past.reverse)
    (hc : Emission (d₀.openGraph env).toDigraph {} past.reverse component s)
    (ho : ∀ n ∈ component, n ∉ d₀.reached.keys) :
    d.cached.OnTop {n | n ∈ d.reached.keys} component := by
  have hnodes {n : TypeName} (hn : n ∈ component ∨ n ∈ past.components.flatten) :
      n ∈ past.nodes := by
    rw [← Trace.mem_nodes_reverse]
    rcases hn with hn | hn
    · exact hc.reached n hn
    · exact hs.mem_nodes (Trace.mem_flatten_reverse.mpr hn)
  have hclosed {n m : TypeName} (hn : n ∈ component)
      (hm : m ∈ (d₀.openGraph env).succ n) : m ∈ component ∨ m ∈ past.components.flatten := by
    rcases hc.closed n hn m hm with hm | hm | hm
    · exact Or.inl hm
    · exact absurd hm Bool.false_ne_true
    · exact Or.inr (Trace.mem_flatten_reverse.mp hm)
  constructor
  · exact hc.nodup
  · intro n hn hr
    rcases (h.reached n).mp hr with hr | hr
    · exact ho n hn hr
    · exact hc.fresh n hn (Trace.mem_flatten_reverse.mpr hr)
  · intro n hn m hm
    -- A path between members stays among them and what was completed before: all that is read.
    apply Digraph.Reaches.transfer
      (p := fun n => n ∈ component ∨ n ∈ past.components.flatten) ?_ (hc.connected n hn m hm)
    · exact Or.inl hn
    · intro a ha b hb
      constructor
      · rcases ha with ha | ha
        · exact hclosed ha hb
        · rw [← Trace.mem_flatten_reverse] at ha
          exact Or.inr (Trace.mem_flatten_reverse.mp (hs.closed ha hb))
      · by_cases har : a ∈ d₀.reached.keys
        · rw [succ_openGraph_of_mem har] at hb
          exact absurd hb List.not_mem_nil
        · rw [h.succ_eq (hnodes ha) har]
          exact hb
  · intro n hn m hm
    rw [h.succ_eq (hnodes (Or.inl hn)) (ho n hn)] at hm
    rcases hclosed hn hm with hm | hm
    · exact Or.inl hm
    · exact Or.inr ((h.reached m).mpr (Or.inr hm))
  · exact h.invariant.closed

/-- After a component has been closed, or was found to be closed. -/
theorem complete (h : Following env d₀ past d) (hi : Invariant d') (hd : d'.direct = d.direct)
    (hg : d'.guarded = d.guarded)
    (hr : ∀ n, n ∈ d'.reached.keys ↔ n ∈ d.reached.keys ∨ n ∈ component) :
    Following env d₀ (past ++ [⟨.emitted component, s⟩]) d' := by
  constructor
  · exact hi
  · exact hg.trans h.guarded
  · exact fun n => (edges_congr hd hg n).trans (h.edges n)
  · intro n hn
    rw [hd]
    apply h.read
    rw [Trace.nodes_append, List.mem_append] at hn
    exact hn.resolve_right List.not_mem_nil
  · intro n
    rw [hr, h.reached, Trace.components_append, List.flatten_append, List.mem_append, or_assoc]
    show _ ∨ _ ∨ _ ↔ _ ∨ _ ∨ n ∈ component ++ []
    rw [List.append_nil]

/-- A component that is completed and open can be closed. -/
theorem closable {first : TypeName} {rest : List TypeName} (h : Following env d₀ past d)
    (hs : Sound (d₀.openGraph env).toDigraph {} past.reverse)
    (hc : Emission (d₀.openGraph env).toDigraph {} past.reverse (first :: rest) s)
    (hr : first ∉ d.reached.keys) :
    Closable d (first :: rest) (s.isCyclic? (first :: rest) == some true) := by
  have hf : first ∉ d₀.reached.keys := fun hf => hr ((h.reached first).mpr (Or.inl hf))
  have ho : ∀ n ∈ first :: rest, n ∉ d₀.reached.keys := fun n hn =>
    members_open hc List.mem_cons_self hf hn
  have hn : ∀ n ∈ first :: rest, n ∈ past.nodes := fun n hn =>
    Trace.mem_nodes_reverse.mp (hc.reached n hn)
  constructor
  · exact h.onTop hs hc ho
  · exact fun n hn' => h.read n (hn n hn')
  · rw [beq_iff_eq, hc.isCyclic?_iff]
    exact Digraph.holdsCycle_congr fun n hn' => (h.succ_eq (hn n hn') (ho n hn')).symm

/-- A component that is completed is closed. -/
theorem emit (h : Following env d₀ past d)
    (hs : Sound (d₀.openGraph env).toDigraph {} past.reverse)
    (hc : Emission (d₀.openGraph env).toDigraph {} past.reverse component s) :
    Following env d₀ (past ++ [⟨.emitted component, s⟩])
      (d.follow env ⟨.emitted component, s⟩).2 := by
  obtain ⟨first, rest, rfl⟩ := List.exists_cons_of_ne_nil hc.ne_nil
  have hfirst : first ∈ first :: rest := List.mem_cons_self
  have ht := h.tell (.component (first :: rest))
  by_cases hr : first ∈ d.reached.keys
  · -- The component is one alias that was closed before the search began.
    rw [follow_emitted_of_mem hr]
    apply ht.complete ht.invariant rfl rfl
    intro n
    rw [iff_self_or]
    intro hn
    have hf : first ∈ d₀.reached.keys := by
      rcases (h.reached first).mp hr with hf | hf
      · exact hf
      · exact absurd (Trace.mem_flatten_reverse.mpr hf) (hc.fresh first hfirst)
    rw [Digraph.Reaches.eq_of_leaf (succ_openGraph_of_mem hf) (hc.connected first hfirst n hn)]
    exact hr
  · have hopen := ht.closable hs hc hr
    rw [follow_emitted hr]
    apply ht.complete (ht.invariant.close hopen) direct_close guarded_close
    intro n
    rw [mem_reached_close, or_comm]

/-- One moment of a search: when it fails, what is known is what was known before. -/
theorem follow (h : Following env d₀ past d) {moment : Moment TypeName}
    (ht : (d₀.openGraph env).trace starts = past ++ moment :: future) :
    ((d.follow env moment).1 = .ok () ∧
      Following env d₀ (past ++ [moment]) (d.follow env moment).2) ∨
    ∃ e, (d.follow env moment).1 = .error e ∧ (d.follow env moment).2 = d := by
  obtain ⟨event, s⟩ := moment
  have htrace := (d₀.openGraph env).trace?_eq starts
  cases event with
  | reached n =>
    by_cases hn : n ∈ d.reached.keys
    · rw [follow_reached_of_mem hn]
      exact Or.inl ⟨rfl, h.reach (Grows.refl d) (fun _ => rfl) (h.invariant.read n hn)⟩
    · rw [follow_reached hn]
      cases hd : (d.readDirect env n).1 with
      | ok deps =>
        exact Or.inl ⟨rfl, h.reach (grows_readDirect env d n) (edges_readDirect env d n)
          (mem_direct_readDirect hd)⟩
      | error e => exact Or.inr ⟨e, rfl, readDirect_error hd⟩
  | emitted component =>
    have hsound := Digraph.sound_past htrace ht
    exact Or.inl ⟨follow_emitted_ok, h.emit hsound (Digraph.emission_trace? htrace ht)⟩

/-- A search is followed up to its end, or up to a definition that is missing. -/
theorem followAll (h : Following env d₀ past d)
    (ht : (d₀.openGraph env).trace starts = past ++ future) :
    ∃ seen, Following env d₀ seen (d.followAll env future).2 ∧
      ((d.followAll env future).1 = .ok () → seen = past ++ future) := by
  induction future generalizing past d with
  | nil =>
    refine ⟨past, h, fun _ => ?_⟩
    rw [List.append_nil]
  | cons moment future ih =>
    rcases h.follow ht with ⟨hok, hnext⟩ | ⟨e, herr, hsame⟩
    · rw [followAll_cons_ok hok]
      have hrest : (d₀.openGraph env).trace starts = (past ++ [moment]) ++ future := by
        rw [ht, List.append_assoc]
        rfl
      obtain ⟨seen, hf, hend⟩ := ih hnext hrest
      refine ⟨seen, hf, fun hn => ?_⟩
      rw [hend hn, List.append_assoc]
      rfl
    · rw [followAll_cons_error herr, hsame]
      exact ⟨past, h, fun hn => by cases hn⟩

end Following

/-- A search that reaches none but declared aliases is followed up to its end. -/
theorem followAll_ok {future : Trace TypeName} (h : ∀ n ∈ future.nodes, n ∈ env.aliasNames) :
    (d.followAll env future).1 = .ok () := by
  induction future generalizing d with
  | nil => rfl
  | cons moment future ih =>
    have hrest : ∀ n ∈ Trace.nodes future, n ∈ env.aliasNames := by
      intro n hn
      apply h
      rw [Trace.nodes, List.filterMap_cons]
      split
      · exact hn
      · exact List.mem_cons_of_mem _ hn
    have hok : (d.follow env moment).1 = .ok () := by
      obtain ⟨event, s⟩ := moment
      cases event with
      | reached n =>
        by_cases hn : n ∈ d.reached.keys
        · rw [follow_reached_of_mem hn]
        · have hd : (d.readDirect env n).1 = .ok (d.edges env n) :=
            readDirect_ok (h n List.mem_cons_self)
          rw [follow_reached hn, hd]
          rfl
      | emitted component => exact follow_emitted_ok
    rw [followAll_cons_ok hok]
    exact ih hrest

/-- Closing an alias, in each of the ways this can go. -/
theorem readReached_cases (env : Environment) (d : Dependencies) (n : TypeName) :
    (∃ t, d.reached.get? n = some t ∧ d.readReached env n = (.ok t, d)) ∨
    n ∉ d.reached.keys ∧ ∃ r d', d.followAll env ((d.openGraph env).trace [n]) = (r, d') ∧
      d.readReached env n = (r.map fun _ => (d'.reached.get? n).getD ∅, d') := by
  unfold readReached
  cases hn : d.reached.get? n with
  | some t => exact Or.inl ⟨t, rfl, rfl⟩
  | none =>
    refine Or.inr ⟨Table.get?_eq_none_iff.mp hn, ?_⟩
    dsimp only
    generalize d.followAll env ((d.openGraph env).trace [n]) = all
    obtain ⟨r, d'⟩ := all
    refine ⟨r, d', rfl, ?_⟩
    cases r <;> rfl

/-- A property of the definitions that have been read, which reading another one keeps. -/
structure KeptByReading (env : Environment) (p : Dependencies → Prop) : Prop where
  congr : ∀ d d', d'.guarded = d.guarded → d'.direct = d.direct → d'.dangling = d.dangling →
    p d → p d'
  read : ∀ d n, p d → p (d.readDirect env n).2

namespace KeptByReading

variable {p : Dependencies → Prop}

theorem tell (hp : KeptByReading env p) (notice : Notice) (h : p d) : p (d.tell notice) :=
  hp.congr d _ rfl rfl rfl h

theorem follow (hp : KeptByReading env p) (moment : Moment TypeName) (h : p d) :
    p (d.follow env moment).2 := by
  obtain ⟨event, s⟩ := moment
  cases event with
  | reached n =>
    by_cases hn : n ∈ d.reached.keys
    · rw [follow_reached_of_mem hn]
      exact h
    · rw [follow_reached hn]
      exact hp.read d n h
  | emitted component =>
    unfold Dependencies.follow
    dsimp only
    split
    · exact hp.tell _ h
    · exact hp.congr _ _ guarded_close direct_close dangling_close (hp.tell _ h)

theorem followAll (hp : KeptByReading env p) (future : Trace TypeName) (h : p d) :
    p (d.followAll env future).2 := by
  induction future generalizing d with
  | nil => exact h
  | cons moment future ih =>
    have hnext := hp.follow moment h
    cases hf : (d.follow env moment).1 with
    | ok _ =>
      rw [followAll_cons_ok hf]
      exact ih hnext
    | error e =>
      rw [followAll_cons_error hf]
      exact hnext

/-- What reading keeps is kept when an alias is closed, whether all definitions are found or not. -/
theorem readReached (hp : KeptByReading env p) (n : TypeName) (h : p d) :
    p (d.readReached env n).2 := by
  rcases readReached_cases env d n with ⟨_, _, hr⟩ | ⟨_, _, _, hall, hr⟩
  · rw [hr]
    exact h
  · have hnext := hp.followAll ((d.openGraph env).trace [n]) h
    rw [hall] at hnext
    rw [hr]
    exact hnext

end KeptByReading

/-- What closing an alias leaves, whether all definitions are found or not. -/
theorem Invariant.readReached (h : Invariant d) (env : Environment) (n : TypeName) :
    Invariant (d.readReached env n).2 ∧ (d.readReached env n).2.guarded = d.guarded ∧
      (∀ m, (d.readReached env n).2.edges env m = d.edges env m) ∧
      ∀ t, (d.readReached env n).1 = .ok t → (d.readReached env n).2.reached.get? n = some t := by
  rcases readReached_cases env d n with ⟨t, ht, hr⟩ | ⟨_, r, d', hall, hr⟩
  · rw [hr]
    refine ⟨h, rfl, fun m => rfl, fun t' ht' => ?_⟩
    cases ht'
    exact ht
  · have htrace : (d.openGraph env).trace [n] = [] ++ (d.openGraph env).trace [n] := rfl
    obtain ⟨seen, hf, hend⟩ := (Following.initial h).followAll htrace
    rw [hall] at hf hend
    rw [hr]
    refine ⟨hf.invariant, hf.guarded, hf.edges, fun t ht => ?_⟩
    cases r with
    | error e => cases ht
    | ok _ =>
      cases ht
      have hmem : n ∈ d'.reached.keys := by
        rw [hf.reached, hend rfl]
        apply Or.inr
        exact (Digraph.mem_components_trace? ((d.openGraph env).trace?_eq [n]) n).mpr
          (Digraph.mem_reachable_of_mem List.mem_cons_self)
      obtain ⟨t, ht⟩ := Table.mem_keys_iff_get?.mp hmem
      show d'.reached.get? n = some ((d'.reached.get? n).getD ∅)
      rw [ht]
      rfl

/-- An alias can be closed when all that is within its reach is declared. -/
theorem readReached_ok (h : ∀ m, (d.openGraph env).Reaches n m → m ∈ env.aliasNames) :
    ∃ t, (d.readReached env n).1 = .ok t := by
  rcases readReached_cases env d n with ⟨t, _, hr⟩ | ⟨_, r, d', hall, hr⟩
  · exact ⟨t, by rw [hr]⟩
  · have hok : (d.followAll env ((d.openGraph env).trace [n])).1 = .ok () := by
      apply followAll_ok
      intro m hm
      obtain ⟨k, hk, hr⟩ := Digraph.mem_reachable_trace? ((d.openGraph env).trace?_eq [n]) hm
      rw [List.mem_singleton.mp hk] at hr
      exact h m hr
    rw [hall] at hok
    cases hok
    rw [hr]
    exact ⟨_, rfl⟩

end TypeAlias.Dependencies
