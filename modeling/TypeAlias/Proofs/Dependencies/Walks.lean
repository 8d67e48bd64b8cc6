import Mathlib.Data.Set.Card
import TypeAlias.Proofs.Dependencies.Answers

/-!
# Definitions are read once, and when they are needed

A question needs the definition of the alias it names, or of all that is within reach of it, or all
definitions. In an environment that does not change, just the definitions needed by the questions
asked so far have been read, and each of them once. So asking the same question again reads nothing,
nor does any question after all aliases have been closed.
-/

namespace TypeAlias

namespace Dependencies

variable {env : Environment} {guarded : Bool} {s s' : Set TypeName} {d d' d'' : Dependencies}
  {n : TypeName}

/-- Of the definitions of the aliases of a set some have been read, and no others; a definition is
read when it has not been read before. -/
structure ReadsWithin (s : Set TypeName) (d d' : Dependencies) : Prop where
  kept : ∀ n ∈ d.direct.keys, n ∈ d'.direct.keys
  within : ∀ n ∈ d'.direct.keys, n ∈ d.direct.keys ∨ n ∈ s
  once : d.walks = d.direct.size → d'.walks = d'.direct.size

namespace ReadsWithin

/-- Nothing is read. -/
theorem of_eq (hd : d'.direct = d.direct) (hw : d'.walks = d.walks) : ReadsWithin s d d' := by
  constructor
  · rw [hd]
    exact fun _ hn => hn
  · rw [hd]
    exact fun _ hn => Or.inl hn
  · rw [hd, hw]
    exact fun h => h

theorem mono (h : ReadsWithin s d d') (hs : s ⊆ s') : ReadsWithin s' d d' :=
  ⟨h.kept, fun n hn => (h.within n hn).imp_right fun hn => hs hn, h.once⟩

theorem trans (h : ReadsWithin s d d') (h' : ReadsWithin s d' d'') : ReadsWithin s d d'' := by
  constructor
  · exact fun n hn => h'.kept n (h.kept n hn)
  · intro n hn
    rcases h'.within n hn with hn | hn
    · exact h.within n hn
    · exact Or.inr hn
  · exact fun hw => h'.once (h.once hw)

/-- Reading one definition. -/
theorem readDirect (env : Environment) (d : Dependencies) (hn : n ∈ s) :
    ReadsWithin s d (d.readDirect env n).2 := by
  rcases readDirect_cases env d n with ⟨_, _, hr⟩ | ⟨_, _, _, hr⟩ | ⟨hnew, decl, _, hr⟩
  · rw [hr]
    exact of_eq rfl rfl
  · rw [hr]
    exact of_eq rfl rfl
  · rw [hr]
    constructor
    · exact fun m hm => Table.mem_keys_insert.mpr (Or.inr hm)
    · intro m hm
      rcases Table.mem_keys_insert.mp hm with rfl | hm
      · exact Or.inr hn
      · exact Or.inl hm
    · intro hw
      show d.walks + 1 = (d.direct.insert n _).entries.length
      rw [Table.entries_insert_of_not_mem hnew, List.length_append, hw]
      rfl

theorem close {component : List TypeName} {cyclic : Bool} :
    ReadsWithin s d (d.close component cyclic) := by
  apply of_eq direct_close
  cases cyclic <;> rfl

/-- One moment of a search. -/
theorem follow {moment : Moment TypeName} (hn : ∀ n, moment.reached? = some n → n ∈ s) :
    ReadsWithin s d (d.follow env moment).2 := by
  obtain ⟨event, state⟩ := moment
  cases event with
  | reached n =>
    by_cases hr : n ∈ d.reached.keys
    · rw [follow_reached_of_mem hr]
      exact of_eq rfl rfl
    · rw [follow_reached hr]
      exact readDirect env d (hn n rfl)
  | emitted component =>
    have htell : ReadsWithin s d (d.tell (.component component)) := of_eq rfl rfl
    unfold Dependencies.follow
    dsimp only
    split
    · exact htell
    · exact htell.trans close

/-- A search reads no definitions but those of the aliases it reaches. -/
theorem followAll {future : Trace TypeName} (hn : ∀ n ∈ future.nodes, n ∈ s) :
    ReadsWithin s d (d.followAll env future).2 := by
  induction future generalizing d with
  | nil => exact of_eq rfl rfl
  | cons moment future ih =>
    have hfirst : ReadsWithin s d (d.follow env moment).2 :=
      follow fun n hm => hn n (List.mem_filterMap.mpr ⟨moment, List.mem_cons_self, hm⟩)
    have hrest : ∀ n ∈ Trace.nodes future, n ∈ s := by
      intro n hm
      obtain ⟨moment', hmem, he⟩ := List.mem_filterMap.mp hm
      exact hn n (List.mem_filterMap.mpr ⟨moment', List.mem_cons_of_mem _ hmem, he⟩)
    cases hf : (d.follow env moment).1 with
    | ok _ =>
      rw [followAll_cons_ok hf]
      exact hfirst.trans (ih hrest)
    | error e =>
      rw [followAll_cons_error hf]
      exact hfirst

end ReadsWithin

/-- The definitions of the aliases of a set have been read, those that had been read before apart,
and no others. -/
structure Reads (s : Set TypeName) (d d' : Dependencies) : Prop extends ReadsWithin s d d' where
  all : ∀ n ∈ s, n ∈ d'.direct.keys

namespace Reads

/-- A step that needs nothing. -/
theorem nothing (hd : d'.direct = d.direct) (hw : d'.walks = d.walks) : Reads ∅ d d' :=
  ⟨.of_eq hd hw, fun _ hn => hn.elim⟩

theorem trans (h : Reads s d d') (h' : Reads s' d' d'') : Reads (s ∪ s') d d'' := by
  constructor
  · exact (h.mono Set.subset_union_left).trans (h'.mono Set.subset_union_right)
  · rintro n (hn | hn)
    · exact h'.kept n (h.all n hn)
    · exact h'.all n hn

theorem congr (h : Reads s d d') (hs : ∀ n, n ∈ s' ↔ n ∈ s) : Reads s' d d' := by
  rwa [Set.ext hs]

/-- When nothing had been read before, what has been read is what was needed, and it is counted. -/
theorem walks_eq (h : Reads s { guarded := guarded } d) : s.Finite ∧ d.walks = s.ncard := by
  have hs : s = ↑d.direct.keys.toFinset := by
    ext n
    rw [Finset.mem_coe, List.mem_toFinset]
    exact ⟨h.all n, fun hn => (h.within n hn).resolve_left List.not_mem_nil⟩
  constructor
  · rw [hs]
    exact Finset.finite_toSet _
  · have hn : d.direct.keys.Nodup := d.direct.nodup_keys
    rw [h.once rfl, hs, Set.ncard_coe_finset, List.toFinset_card_of_nodup hn]
    exact (List.length_map Prod.fst).symm

end Reads

namespace Settled

/-- Reading the definition of a declared alias. -/
theorem reads_readDirect (h : Settled env guarded d) (hn : n ∈ env.aliasNames) :
    Reads {n} d (d.readDirect env n).2 := by
  constructor
  · exact .readDirect env d (Set.mem_singleton n)
  · rintro _ rfl
    exact mem_direct_readDirect (h.readDirect hn)

/-- All that is within reach of a closed alias has been read. -/
theorem mem_direct_of_reaches (h : Settled env guarded d) (hn : n ∈ d.reached.keys) {m : TypeName}
    (hm : (env.dependencyGraph guarded).Reaches n m) : m ∈ d.direct.keys := by
  apply h.invariant.read
  apply Digraph.Reaches.keeps (p := (· ∈ d.reached.keys)) ?_ hm hn
  exact fun a ha b hb => h.invariant.closed a ha b ((h.mem_succ_cached ha b).mpr hb)

/-- Closing a declared alias. -/
theorem reads_readReached (h : Settled env guarded d) (hn : n ∈ env.aliasNames) :
    Reads {m | (env.dependencyGraph guarded).Reaches n m} d (d.readReached env n).2 := by
  constructor
  · rcases readReached_cases env d n with ⟨_, _, hr⟩ | ⟨_, r, d', hall, hr⟩
    · rw [hr]
      exact .of_eq rfl rfl
    · have hfollow : ReadsWithin {m | (env.dependencyGraph guarded).Reaches n m} d
          (d.followAll env ((d.openGraph env).trace [n])).2 := by
        apply ReadsWithin.followAll
        intro m hm
        obtain ⟨_, hs, hreach⟩ := Digraph.mem_reachable_trace? ((d.openGraph env).trace?_eq [n]) hm
        rw [List.mem_singleton.mp hs] at hreach
        exact h.reaches_of_openGraph hreach
      rw [hall] at hfollow
      rw [hr]
      exact hfollow
  · intro m hm
    obtain ⟨t, -, ht⟩ := h.readReached hn
    exact ((stable env guarded).reached d n h).mem_direct_of_reaches
      (Table.mem_keys_iff_get?.mpr ⟨t, ht⟩) hm

end Settled

end Dependencies

namespace Query

open Dependencies

variable {α β : Type} {env : Environment} {guarded : Bool} {s s' : Set TypeName} {n : TypeName}

/-- A query reads the definitions of the aliases of a set, unless they have been read before, and no
others. -/
def Reads (env : Environment) (guarded : Bool) (s : Set TypeName) (q : Query α) : Prop :=
  ∀ d, Settled env guarded d →
    Settled env guarded (q.answer d).2 ∧ Dependencies.Reads s d (q.answer d).2

theorem reads_pure (a : α) : Reads env guarded ∅ (pure a : Query α) :=
  fun _ h => ⟨h, .nothing rfl rfl⟩

theorem reads_get : Reads env guarded ∅ (get : Query Dependencies) :=
  fun _ h => ⟨h, .nothing rfl rfl⟩

theorem reads_tell (notice : Notice) : Reads env guarded ∅ (tell notice) :=
  fun d h => ⟨(Settled.stable env guarded).tell d notice h, .nothing rfl rfl⟩

theorem reads_directOf (hn : n ∈ env.aliasNames) : Reads env guarded {n} (directOf env n) :=
  fun d h => ⟨(Settled.stable env guarded).direct d n h, h.reads_readDirect hn⟩

theorem reads_reachedOf (hn : n ∈ env.aliasNames) :
    Reads env guarded {m | (env.dependencyGraph guarded).Reaches n m} (reachedOf env n) :=
  fun d h => ⟨(Settled.stable env guarded).reached d n h, h.reads_readReached hn⟩

namespace Reads

variable {q : Query α}

/-- After a query that has an answer, another one. -/
theorem bind {f : α → Query β} (hq : Reads env guarded s q)
    (hr : Returns (Settled env guarded) q fun _ => True) (hf : ∀ a, Reads env guarded s' (f a)) :
    Reads env guarded (s ∪ s') (q >>= f) := by
  intro d h
  obtain ⟨hd, hs⟩ := hq d h
  obtain ⟨a, d', hrun, -, -⟩ := hr d h
  have hanswer : q.answer d = (.ok a, d') := hrun
  rw [hanswer] at hd hs
  rw [answer_bind, hanswer]
  obtain ⟨hd', hs'⟩ := hf a d' hd
  exact ⟨hd', hs.trans hs'⟩

/-- What is done with an answer, if there is one, may read nothing more. -/
theorem bind_nothing {f : α → Query β} (hq : Reads env guarded s q)
    (hf : ∀ a, Reads env guarded ∅ (f a)) : Reads env guarded s (q >>= f) := by
  intro d h
  have hd := hq d h
  rw [answer_bind]
  generalize q.answer d = r at hd
  obtain ⟨r, d'⟩ := r
  cases r with
  | ok a =>
    obtain ⟨hd', hs'⟩ := hf a d' hd.1
    have hall := hd.2.trans hs'
    rw [Set.union_empty] at hall
    exact ⟨hd', hall⟩
  | error e => exact hd

theorem discard (hq : Reads env guarded s q) : Reads env guarded s (discard q) := by
  intro d h
  rw [answer_discard]
  exact hq d h

end Reads

/-- One query after the other. -/
theorem reads_forM {f : TypeName → Query Unit} {needed : TypeName → Set TypeName}
    {names : List TypeName} (hf : ∀ n ∈ names, Reads env guarded (needed n) (f n))
    (hr : ∀ n ∈ names, Returns (Settled env guarded) (f n) fun _ => True) :
    Reads env guarded {m | ∃ n ∈ names, m ∈ needed n} (names.forM f) := by
  induction names with
  | nil =>
    have hnone : {m | ∃ n ∈ ([] : List TypeName), m ∈ needed n} = ∅ := by simp
    rw [hnone]
    exact reads_pure ()
  | cons name names ih =>
    have hrest := ih (fun n hn => hf n (List.mem_cons_of_mem _ hn))
      fun n hn => hr n (List.mem_cons_of_mem _ hn)
    have hcons : {m | ∃ n ∈ name :: names, m ∈ needed n} =
        needed name ∪ {m | ∃ n ∈ names, m ∈ needed n} := by
      ext m
      simp
    rw [hcons]
    exact (hf name List.mem_cons_self).bind (hr name List.mem_cons_self) fun _ => hrest

/-- A query about what a written name stands for needs what it needs for that alias. -/
theorem reads_canonical {needed : TypeName → Set TypeName} {f : TypeName → Query α}
    (hf : ∀ n ∈ env.aliasNames, Reads env guarded (needed n) (f n)) (name : TypeName) :
    Reads env guarded ((env.normalize name).toOption.elim ∅ needed)
      (canonical env name >>= f) := by
  intro d h
  rw [answer_bind, canonical, answer_ofLookup]
  cases hn : env.normalize name with
  | ok n => exact hf n (Environment.mem_aliasNames_of_normalize hn) d h
  | error e => exact ⟨h, .nothing rfl rfl⟩

end Query

/-- The declared alias that a given name stands for. -/
def GivenName.alias? (env : Environment) : GivenName → Option TypeName
  | text t => (TypeName.parse? t).bind fun n => (env.normalize n).toOption
  | name n => (env.normalize n).toOption

theorem GivenName.mem_aliasNames_of_alias? {env : Environment} {x : GivenName} {n : TypeName}
    (h : x.alias? env = some n) : n ∈ env.aliasNames := by
  have hnormalize {name : TypeName} (h : (env.normalize name).toOption = some n) :
      n ∈ env.aliasNames := by
    cases hn : env.normalize name with
    | error e =>
      rw [hn] at h
      cases h
    | ok key =>
      rw [hn] at h
      cases h
      exact Environment.mem_aliasNames_of_normalize hn
  cases x with
  | name name => exact hnormalize h
  | text t =>
    obtain ⟨name, -, h⟩ := Option.bind_eq_some_iff.mp h
    exact hnormalize h

namespace Question

open Query Dependencies

variable {env : Environment} {guarded : Bool}

/-- The aliases whose definitions a question needs: none when it has no answer. -/
def needs (env : Environment) (guarded : Bool) : Question → Set TypeName
  | directDependencies x | danglingReferences x => (x.alias? env).elim ∅ fun n => {n}
  | isCircular x | dependencies x | transitiveDependencies x | cycle x =>
    (x.alias? env).elim ∅ fun n => {m | (env.dependencyGraph guarded).Reaches n m}
  | readAll | closeAll => {n | n ∈ env.aliasNames}

/-- The aliases whose definitions some questions need. -/
def needed (env : Environment) (guarded : Bool) (history : List Question) : Set TypeName :=
  {n | ∃ q ∈ history, n ∈ q.needs env guarded}

/-- No question needs more than all definitions. -/
theorem needs_subset (env : Environment) (guarded : Bool) (q : Question) :
    q.needs env guarded ⊆ {n | n ∈ env.aliasNames} := by
  have hgiven (x : GivenName) {needed : TypeName → Set TypeName}
      (h : ∀ n ∈ env.aliasNames, needed n ⊆ {n | n ∈ env.aliasNames}) :
      (x.alias? env).elim ∅ needed ⊆ {n | n ∈ env.aliasNames} := by
    cases hx : x.alias? env with
    | none => exact Set.empty_subset _
    | some n => exact h n (GivenName.mem_aliasNames_of_alias? hx)
  have hdirect (x : GivenName) := hgiven x fun _ hn => Set.singleton_subset_iff.mpr hn
  have hwithin (n : TypeName) (hn : n ∈ env.aliasNames) :
      {m | (env.dependencyGraph guarded).Reaches n m} ⊆ {n | n ∈ env.aliasNames} :=
    fun _ hm => mem_aliasNames_of_reaches hn hm
  have hreach (x : GivenName) := hgiven x hwithin
  cases q with
  | directDependencies x => exact hdirect x
  | danglingReferences x => exact hdirect x
  | isCircular x => exact hreach x
  | dependencies x => exact hreach x
  | transitiveDependencies x => exact hreach x
  | cycle x => exact hreach x
  | readAll => exact Set.Subset.rfl
  | closeAll => exact Set.Subset.rfl

/-- A query about a given name. -/
theorem reads_given {α : Type} {needed : TypeName → Set TypeName} {q : TypeName → Query α}
    (hq : ∀ name, Query.Reads env guarded ((env.normalize name).toOption.elim ∅ needed) (q name))
    (x : GivenName) :
    Query.Reads env guarded ((x.alias? env).elim ∅ needed) (do discard (q (← x.read))) := by
  cases x with
  | name n => exact (hq n).discard
  | text t =>
    intro d h
    rw [answer_bind, GivenName.read, Query.name, GivenName.alias?]
    cases TypeName.parse? t with
    | none => exact ⟨h, .nothing rfl rfl⟩
    | some n => exact (hq n).discard d h

theorem reads_readAll (env : Environment) (guarded : Bool) :
    Query.Reads env guarded {n | n ∈ env.aliasNames} (Query.readAll env) := by
  have hall : Query.Reads env guarded {m | ∃ n ∈ env.aliasNames, m ∈ ({n} : Set TypeName)}
      (Query.readAll env) :=
    reads_forM (fun _ hn => (reads_directOf hn).discard) fun _ hn => (returns_directOf hn).discard
  have hnames : {m | ∃ n ∈ env.aliasNames, m ∈ ({n} : Set TypeName)} =
      {n | n ∈ env.aliasNames} := by
    ext m
    simp
  rwa [hnames] at hall

/-- All that is within reach of declared aliases is declared. -/
theorem reads_closeAll (env : Environment) (guarded : Bool) :
    Query.Reads env guarded {n | n ∈ env.aliasNames} (Query.closeAll env) := by
  have hread : Returns (Settled env guarded) (Query.readAll env) fun _ => True :=
    returns_forM fun _ hn => (returns_directOf hn).discard
  have hclose : Query.Reads env guarded
      {m | ∃ n ∈ env.aliasNames, m ∈ {m | (env.dependencyGraph guarded).Reaches n m}}
      (env.aliasNames.forM fun n => discard (reachedOf env n)) :=
    reads_forM (fun _ hn => (reads_reachedOf hn).discard) fun _ hn => (returns_reachedOf hn).discard
  have hall := (reads_readAll env guarded).bind hread fun _ =>
    hclose.bind_nothing fun _ => reads_get.bind_nothing fun d =>
      reads_tell (.closed d.reached.size d.walks d.cycles.size)
  have hnames : {n | n ∈ env.aliasNames} ∪
      {m | ∃ n ∈ env.aliasNames, m ∈ {m | (env.dependencyGraph guarded).Reaches n m}} =
      {n | n ∈ env.aliasNames} := by
    apply Set.union_eq_self_of_subset_right
    rintro m ⟨n, hn, hm⟩
    exact mem_aliasNames_of_reaches hn hm
  rwa [hnames] at hall

/-- A question reads the definitions it needs, unless they have been read before, and no others. -/
theorem reads_ask (env : Environment) (guarded : Bool) (q : Question) :
    Query.Reads env guarded (q.needs env guarded) (q.ask env) := by
  cases q with
  | isCircular x =>
    exact reads_given (reads_canonical fun _ hn =>
      (reads_reachedOf hn).bind_nothing fun _ => reads_pure _) x
  | directDependencies x => exact reads_given (reads_canonical fun _ hn => reads_directOf hn) x
  | dependencies x =>
    refine reads_given (fun name => ?_) x
    exact (reads_canonical (fun _ hn => reads_reachedOf hn) name).bind_nothing fun _ => reads_pure _
  | transitiveDependencies x =>
    exact reads_given (reads_canonical fun _ hn => reads_reachedOf hn) x
  | cycle x =>
    exact reads_given (reads_canonical fun _ hn => (reads_reachedOf hn).bind_nothing fun _ =>
      reads_get.bind_nothing fun _ => reads_pure _) x
  | danglingReferences x =>
    exact reads_given (reads_canonical fun _ hn => (reads_directOf hn).bind_nothing fun _ =>
      reads_get.bind_nothing fun _ => reads_pure _) x
  | readAll => exact reads_readAll env guarded
  | closeAll => exact reads_closeAll env guarded

/-- Any number of questions read what they need. -/
theorem reads_askAll (env : Environment) (guarded : Bool) (history : List Question)
    {d : Dependencies} (h : Settled env guarded d) :
    Dependencies.Reads (needed env guarded history) d (askAll env history d) := by
  induction history generalizing d with
  | nil =>
    apply (Dependencies.Reads.nothing rfl rfl).congr
    simp [needed]
  | cons q history ih =>
    obtain ⟨hd, hq⟩ := reads_ask env guarded q d h
    apply (hq.trans (ih hd)).congr
    simp [needed]

/-- As many definitions have been read as the questions asked so far need. So a question that has
been asked before reads nothing, nor does any question when all aliases have been closed. -/
theorem walks_askAll (env : Environment) (guarded : Bool) (history : List Question) :
    (needed env guarded history).Finite ∧
      (askAll env history { guarded := guarded }).walks = (needed env guarded history).ncard ∧
      ∀ q, q ∈ history ∨ closeAll ∈ history →
        (askAll env (history ++ [q]) { guarded := guarded }).walks =
          (askAll env history { guarded := guarded }).walks := by
  have hwalks (history : List Question) :=
    (reads_askAll env guarded history (Settled.initial env guarded)).walks_eq
  refine ⟨(hwalks history).1, (hwalks history).2, fun q hq => ?_⟩
  have hsub : q.needs env guarded ⊆ needed env guarded history := by
    intro n hn
    rcases hq with hq | hq
    · exact ⟨q, hq, hn⟩
    · exact ⟨closeAll, hq, needs_subset env guarded q hn⟩
  have hsame : needed env guarded (history ++ [q]) = needed env guarded history := by
    ext n
    constructor
    · rintro ⟨q', hq', hn⟩
      rcases List.mem_append.mp hq' with hq' | hq'
      · exact ⟨q', hq', hn⟩
      · rw [List.mem_singleton.mp hq'] at hn
        exact hsub hn
    · rintro ⟨q', hq', hn⟩
      exact ⟨q', List.mem_append_left _ hq', hn⟩
  rw [(hwalks _).2, (hwalks _).2, hsame]

theorem walks_askAll_reciprocal :
    closeAll ∈ [isCircular (.text "nowhere"), closeAll] ∧
      (askAll .reciprocal [isCircular (.text "nowhere"), closeAll, cycle (.text "k::c")]
          { guarded := true }).walks =
        (askAll .reciprocal [isCircular (.text "nowhere"), closeAll] { guarded := true }).walks := by
  have hmem : closeAll ∈ [isCircular (.text "nowhere"), closeAll] :=
    List.mem_cons_of_mem _ List.mem_cons_self
  exact ⟨hmem, (walks_askAll .reciprocal true _).2.2 (cycle (.text "k::c")) (Or.inr hmem)⟩

end Question

end TypeAlias
