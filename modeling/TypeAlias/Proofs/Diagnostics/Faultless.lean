import TypeAlias.Proofs.Diagnostics.Inquiries
import TypeAlias.Proofs.Diagnostics.StrictQueries

/-!
# Diagnostics cannot fail

In an environment that does not change, every query does the same with strict access as without,
whatever has been asked before. So everything that is looked up on the way is there, and what stands
in the way of diagnostics can only be a cycle that is in the way of an order.
-/

namespace TypeAlias

open Dependencies

/-- A query does the same with strict access as without, and keeps a property of what is known. -/
def Faultless {α : Type} (p : Dependencies → Prop) (strict : StrictQuery α) (q : Query α) : Prop :=
  ∀ d, p d → strict.answer d = ((q.answer d).1.mapError .query, (q.answer d).2) ∧ p (q.answer d).2

namespace Faultless

variable {α β : Type} {p : Dependencies → Prop} {strict : StrictQuery α} {q : Query α}

theorem keeps (h : Faultless p strict q) : Query.Keeps p q :=
  fun d hd => (h d hd).2

theorem ofQuery (h : Query.Keeps p q) : Faultless p (.ofQuery q) q :=
  fun d hd => ⟨rfl, h d hd⟩

theorem pure (a : α) : Faultless p (pure a) (pure a) :=
  fun _ hd => ⟨rfl, hd⟩

theorem throw (e : QueryError) : Faultless p (throw (.query e) : StrictQuery α) (throw e) :=
  fun _ hd => ⟨rfl, hd⟩

theorem get : Faultless p (get : StrictQuery Dependencies) get :=
  fun _ hd => ⟨rfl, hd⟩

theorem ofAccess {f : Dependencies → Except (Fault TypeName) (Except LookupError α × Dependencies)}
    {g : Dependencies → Except LookupError α × Dependencies} (h : ∀ d, p d → f d = .ok (g d))
    (hk : ∀ d, p d → p (g d).2) : Faultless p (.ofAccess f) (.ofLookup g) := by
  intro d hd
  refine ⟨?_, hk d hd⟩
  rw [StrictQuery.answer_ofAccess (h d hd), Query.answer_ofLookup]
  cases (g d).1 <;> rfl

/-- What follows a query may count on its result and on what is known then. -/
theorem bindTo {sf : α → StrictQuery β} {f : α → Query β} {r : α → Dependencies → Prop}
    (h : Faultless p strict q)
    (hr : ∀ d, p d → ∀ a, (q.answer d).1 = .ok a → r a (q.answer d).2)
    (hf : ∀ a, Faultless (r a) (sf a) (f a)) (hp : ∀ a d, r a d → p d) :
    Faultless p (strict >>= sf) (q >>= f) := by
  intro d hd
  obtain ⟨hs, hk⟩ := h d hd
  have hthen := hr d hd
  rw [StrictQuery.answer] at hs
  rw [StrictQuery.answer, run_bind, Query.answer_bind, hs]
  generalize q.answer d = result at hk hthen
  obtain ⟨result, d'⟩ := result
  cases result with
  | error e => exact ⟨rfl, hk⟩
  | ok a =>
    obtain ⟨hs', hk'⟩ := hf a d' (hthen a rfl)
    exact ⟨hs', hp a _ hk'⟩

theorem bind {sf : α → StrictQuery β} {f : α → Query β} (h : Faultless p strict q)
    (hf : ∀ a, Faultless p (sf a) (f a)) : Faultless p (strict >>= sf) (q >>= f) :=
  h.bindTo (fun d hd _ _ => h.keeps d hd) hf fun _ _ hd => hd

theorem bindOf {sf : α → StrictQuery β} {f : α → Query β} {result : α → Prop}
    (h : Faultless p strict q) (hr : Returns p q result)
    (hf : ∀ a, result a → Faultless p (sf a) (f a)) : Faultless p (strict >>= sf) (q >>= f) := by
  apply h.bindTo (r := fun a d => result a ∧ p d)
  · intro d hd a ha
    obtain ⟨a', d', hq, hresult, hd'⟩ := hr d hd
    rw [show q.answer d = (.ok a', d') from hq] at ha ⊢
    cases ha
    exact ⟨hresult, hd'⟩
  · intro a d hd
    obtain ⟨hs, hk⟩ := hf a hd.1 d hd.2
    exact ⟨hs, hd.1, hk⟩
  · exact fun _ _ hd => hd.2

theorem discard (h : Faultless p strict q) : Faultless p (discard strict) (discard q) := by
  show Faultless p ((fun _ => ()) <$> strict) ((fun _ => ()) <$> q)
  rw [← bind_pure_comp, ← bind_pure_comp]
  exact h.bind fun _ => pure ()

variable {as : List α}

theorem forM {sf : α → StrictQuery Unit} {f : α → Query Unit}
    (hf : ∀ a ∈ as, Faultless p (sf a) (f a)) : Faultless p (as.forM sf) (as.forM f) := by
  induction as with
  | nil => exact pure ()
  | cons a as ih =>
    exact (hf a List.mem_cons_self).bind fun _ =>
      ih fun a' ha => hf a' (List.mem_cons_of_mem _ ha)

theorem mapM {sf : α → StrictQuery β} {f : α → Query β}
    (hf : ∀ a ∈ as, Faultless p (sf a) (f a)) : Faultless p (as.mapM sf) (as.mapM f) := by
  induction as with
  | nil => exact pure []
  | cons a as ih =>
    rw [List.mapM_cons, List.mapM_cons]
    refine (hf a List.mem_cons_self).bind fun _ => ?_
    exact (ih fun a' ha => hf a' (List.mem_cons_of_mem _ ha)).bind fun _ => pure _

theorem filterMapM {sf : α → StrictQuery (Option β)} {f : α → Query (Option β)}
    (hf : ∀ a ∈ as, Faultless p (sf a) (f a)) :
    Faultless p (as.filterMapM sf) (as.filterMapM f) := by
  induction as with
  | nil => exact pure []
  | cons a as ih =>
    have hrest := ih fun a' ha => hf a' (List.mem_cons_of_mem _ ha)
    rw [List.filterMapM_cons, List.filterMapM_cons]
    apply (hf a List.mem_cons_self).bind
    intro b
    cases b with
    | none => exact hrest
    | some b => exact hrest.bind fun _ => pure _

theorem filterM {sf : α → StrictQuery Bool} {f : α → Query Bool}
    (hf : ∀ a ∈ as, Faultless p (sf a) (f a)) : Faultless p (as.filterM sf) (as.filterM f) := by
  -- what has been kept so far is collected in a list
  have collect (earlier : List α) :
      Faultless p (as.filterAuxM sf earlier) (as.filterAuxM f earlier) := by
    induction as generalizing earlier with
    | nil => exact pure earlier
    | cons a as ih =>
      exact (hf a List.mem_cons_self).bind fun b =>
        ih (fun a' ha => hf a' (List.mem_cons_of_mem _ ha)) (cond b (a :: earlier) earlier)
  exact (collect []).bind fun _ => pure _

end Faultless

namespace Dependencies

variable {env : Environment} {guarded : Bool} {d : Dependencies}

/-- What is kept agrees with the environment, and of every definition that has been read, what
dangles is kept. -/
def Intact (env : Environment) (guarded : Bool) (d : Dependencies) : Prop :=
  Known env guarded d ∧ d.Matched

theorem Intact.initial (env : Environment) (guarded : Bool) :
    Intact env guarded { guarded := guarded } :=
  ⟨Known.initial env guarded, fun _ => Iff.rfl⟩

theorem Intact.stable (he : env.WellKeyed) (guarded : Bool) : Stable env (Intact env guarded) :=
  (Known.stable he guarded).and (Matched.keptByReading he).stable

end Dependencies

namespace StrictQuery

variable {env : Environment} {guarded : Bool}

theorem faultless_directOf (he : env.WellKeyed) (name : TypeName) :
    Faultless (Intact env guarded) (directOf env name) (Query.directOf env name) :=
  .ofAccess (fun _ hd => readDirectStrict_eq he hd.2 name)
    fun d hd => (Intact.stable he guarded).direct d name hd

theorem faultless_reachedOf (he : env.WellKeyed) (name : TypeName) :
    Faultless (Intact env guarded) (reachedOf env name) (Query.reachedOf env name) :=
  .ofAccess (fun _ hd => readReachedStrict_eq hd.1.1.invariant he hd.2 name)
    fun d hd => (Intact.stable he guarded).reached d name hd

theorem faultless_canonical (env : Environment) (name : TypeName) {p : Dependencies → Prop} :
    Faultless p (canonical env name) (Query.canonical env name) :=
  .ofQuery (Query.keeps_canonical env name)

theorem faultless_tell (he : env.WellKeyed) (notice : Notice) :
    Faultless (Intact env guarded) (ofQuery (Query.tell notice)) (Query.tell notice) :=
  .ofQuery ((Intact.stable he guarded).keeps_tell notice)

theorem faultless_isCircular (he : env.WellKeyed) (name : TypeName) :
    Faultless (Intact env guarded) (isCircular env name) (Query.isCircular env name) :=
  (faultless_canonical env name).bind fun name =>
    (faultless_reachedOf he name).bind fun _ => .pure _

theorem faultless_directDependencies (he : env.WellKeyed) (name : TypeName) :
    Faultless (Intact env guarded) (directDependencies env name)
      (Query.directDependencies env name) :=
  (faultless_canonical env name).bind (faultless_directOf he)

theorem faultless_transitiveDependencies (he : env.WellKeyed) (name : TypeName) :
    Faultless (Intact env guarded) (transitiveDependencies env name)
      (Query.transitiveDependencies env name) :=
  (faultless_canonical env name).bind (faultless_reachedOf he)

theorem faultless_dependencies (he : env.WellKeyed) (name : TypeName) :
    Faultless (Intact env guarded) (dependencies env name) (Query.dependencies env name) :=
  (faultless_transitiveDependencies he name).bind fun _ => .pure _

theorem faultless_cycle (he : env.WellKeyed) (name : TypeName) :
    Faultless (Intact env guarded) (cycle env name) (Query.cycle env name) :=
  (faultless_canonical env name).bind fun name =>
    (faultless_reachedOf he name).bind fun _ => Faultless.get.bind fun _ => .pure _

/-- Of an alias that has been read, what dangles is kept. -/
theorem faultless_fetchDangling (name : TypeName) :
    Faultless (fun d => Intact env guarded d ∧ name ∈ d.direct.keys)
      (do check ((← get).dangling.fetch name))
      (do return ((← get).dangling.get? name).getD []) := by
  rintro d ⟨hd, hn⟩
  obtain ⟨refs, hrefs⟩ := Table.mem_keys_iff_get?.mp ((hd.2 name).mpr hn)
  show (check (d.dangling.fetch name)).answer d = (.ok ((d.dangling.get? name).getD []), d) ∧ _
  rw [Table.fetch_of_get? hrefs, hrefs]
  exact ⟨rfl, hd, hn⟩

theorem faultless_danglingReferences (he : env.WellKeyed) (name : TypeName) :
    Faultless (Intact env guarded) (danglingReferences env name)
      (Query.danglingReferences env name) := by
  refine (faultless_canonical env name).bind fun name => ?_
  apply (faultless_directOf he name).bindTo
    (r := fun _ d => Intact env guarded d ∧ name ∈ d.direct.keys)
  · intro d hd deps hdeps
    refine ⟨(faultless_directOf he name).keeps d hd, ?_⟩
    rw [Query.directOf, Query.answer_ofLookup] at hdeps ⊢
    cases hr : (d.readDirect env name).1 with
    | error e =>
      rw [hr] at hdeps
      cases hdeps
    | ok deps => exact mem_direct_readDirect hr
  · exact fun _ => faultless_fetchDangling name
  · exact fun _ _ hd => hd.1

theorem faultless_readAll (he : env.WellKeyed) :
    Faultless (Intact env guarded) (readAll env) (Query.readAll env) :=
  .forM fun name _ => (faultless_directOf he name).discard

theorem faultless_closeAll (he : env.WellKeyed) :
    Faultless (Intact env guarded) (closeAll env) (Query.closeAll env) := by
  refine (faultless_readAll he).bind fun _ => ?_
  refine (Faultless.forM fun name _ => (faultless_reachedOf he name).discard).bind fun _ => ?_
  exact Faultless.get.bind fun _ => faultless_tell he _

theorem faultless_attend (he : env.WellKeyed) (m : Moment TypeName) :
    Faultless (Intact env guarded) (attend env m) (Query.attend env m) := by
  obtain ⟨event, s⟩ := m
  cases event with
  | reached name => exact (faultless_directDependencies he name).discard
  | emitted component => exact faultless_tell he _

theorem faultless_components (he : env.WellKeyed) :
    Faultless (Intact env guarded) (components env) (Query.components env) := by
  refine Faultless.get.bind fun d => ?_
  rw [FiniteDigraph.traceAllStrict_eq]
  exact (Faultless.forM fun m _ => faultless_attend he m).bind fun _ => .pure _

theorem faultless_order (he : env.WellKeyed) :
    Faultless (Intact env guarded) (order env) (Query.order env) := by
  refine Faultless.get.bind fun d => ?_
  have hstrict : (d.trace env).orderStrict = .ok (d.trace env).order :=
    Trace.orderStrict_eq fun c hc => FiniteDigraph.ne_nil_of_mem_components _ _ hc
  rw [FiniteDigraph.traceAllStrict_eq]
  show Faultless _ ((d.trace env).throughCycle.forM (attend env) >>= fun _ =>
      check (d.trace env).orderStrict >>= _) _
  rw [hstrict]
  dsimp only
  refine (Faultless.forM fun m _ => faultless_attend he m).bind fun _ => ?_
  cases (d.trace env).order with
  | ok names => exact .pure names
  | error e => exact (faultless_tell he _).bind fun _ => .throw _

theorem faultless_cycleOfComponent (he : env.WellKeyed) {component : List TypeName}
    (hc : component ≠ []) :
    Faultless (Intact env guarded) (cycleOfComponent env component)
      (Query.cycleOfComponent env component) := by
  obtain ⟨head, rest, rfl⟩ := List.exists_cons_of_ne_nil hc
  exact (faultless_directDependencies he head).bind fun _ => .pure _

/-- What settles what a query returns. -/
theorem returns_intact {α : Type} {q : Query α} {result : α → Prop} (he : env.WellKeyed)
    (h : Returns (Settled env guarded) q result) (hk : ∀ p, Stable env p → Query.Keeps p q) :
    Returns (Intact env guarded) q result :=
  (h.and (hk _ (ReadIn.stable he guarded))).and (hk _ (Matched.keptByReading he).stable)

theorem faultless_cycles (he : env.WellKeyed) :
    Faultless (Intact env guarded) (cycles env) (Query.cycles env) := by
  apply (faultless_components he).bindOf
    (returns_intact he (Query.returns_components he) fun _ h => h.components)
  rintro _ rfl
  exact .filterMapM fun c hc => faultless_cycleOfComponent he
    ((Environment.decomposition_sortedTrace env guarded).ne_nil c hc)

theorem faultless_dangling (he : env.WellKeyed) :
    Faultless (Intact env guarded) (dangling env) (Query.dangling env) := by
  refine (Faultless.mapM fun name _ => ?_).bind fun _ => .pure _
  exact (faultless_danglingReferences he name).bind fun _ => .pure _

theorem faultless_circular (he : env.WellKeyed) :
    Faultless (Intact env guarded) (circular env) (Query.circular env) :=
  .filterM fun name _ => faultless_isCircular he name

theorem faultless_summary (he : env.WellKeyed) :
    Faultless (Intact env guarded) (summary env) (Query.summary env) :=
  (faultless_circular he).bind fun _ => (faultless_cycles he).bind fun _ =>
    (faultless_dangling he).bind fun _ => .pure _

/-- A query about a given name. -/
theorem faultless_ofName {α : Type} {p : Dependencies → Prop} {x : GivenName}
    {strict : TypeName → StrictQuery α} {q : TypeName → Query α}
    (h : ∀ name, Faultless p (strict name) (q name)) :
    Faultless p (do discard (strict (← x.readStrict))) (do discard (q (← x.read))) := by
  have hread : Faultless p x.readStrict x.read := by
    apply Faultless.ofQuery
    cases x with
    | text t => exact Query.keeps_name t
    | name n => exact Query.keeps_pure n
  exact hread.bind fun name => (h name).discard

theorem faultless_question (he : env.WellKeyed) (q : Question) :
    Faultless (Intact env guarded) (q.askStrict env) (q.ask env) := by
  cases q with
  | isCircular x => exact faultless_ofName (faultless_isCircular he)
  | directDependencies x => exact faultless_ofName (faultless_directDependencies he)
  | dependencies x => exact faultless_ofName (faultless_dependencies he)
  | transitiveDependencies x => exact faultless_ofName (faultless_transitiveDependencies he)
  | cycle x => exact faultless_ofName (faultless_cycle he)
  | danglingReferences x => exact faultless_ofName (faultless_danglingReferences he)
  | readAll => exact faultless_readAll he
  | closeAll => exact faultless_closeAll he

theorem faultless_inquiry (he : env.WellKeyed) (i : Inquiry) :
    Faultless (Intact env guarded) (i.askStrict env) (i.ask env) := by
  cases i with
  | one q => exact faultless_question he q
  | components => exact (faultless_components he).discard
  | order => exact (faultless_order he).discard
  | cycles => exact (faultless_cycles he).discard
  | dangling => exact (faultless_dangling he).discard
  | circular => exact (faultless_circular he).discard
  | summary => exact (faultless_summary he).discard

/-- Any number of inquiries, in any order, with answers or without. -/
theorem intact_askAllStrict (he : env.WellKeyed) (history : List Inquiry) {d : Dependencies}
    (hd : Intact env guarded d) : Intact env guarded (Inquiry.askAllStrict env history d) := by
  induction history generalizing d with
  | nil => exact hd
  | cons i history ih =>
    obtain ⟨hs, hk⟩ := faultless_inquiry he i d hd
    rw [Inquiry.askAllStrict, List.foldl_cons, hs]
    exact ih hk

end StrictQuery

/-- A query that returns without strict access returns the same with it. -/
theorem Faultless.returns {α : Type} {p : Dependencies → Prop} {strict : StrictQuery α}
    {q : Query α} {result : α → Prop} (h : Faultless p strict q) (hr : Returns p q result) :
    Returns p strict result := by
  intro d hd
  obtain ⟨a, d', hq, ha, hd'⟩ := hr d hd
  obtain ⟨hs, -⟩ := h d hd
  rw [show q.answer d = (.ok a, d') from hq] at hs
  exact ⟨a, d', hs, ha, hd'⟩

namespace StrictQuery

/-- The diagnostics of an environment cannot fail, except for a cycle that is in the way of an
order. -/
structure Diagnosable (env : Environment) (d : Dependencies) : Prop where
  components : ∃ groups, ((components env).answer d).1 = .ok groups
  cycles : ∃ groups, ((cycles env).answer d).1 = .ok groups
  dangling : ∃ refs, ((dangling env).answer d).1 = .ok refs
  summary : ∃ s, ((summary env).answer d).1 = .ok s
  closeAll : ((closeAll env).answer d).1 = .ok ()
  order : (∃ names, ((order env).answer d).1 = .ok names) ∨
    ∃ e, ((order env).answer d).1 = .error (.query (.cyclic e))
  /-- A declared alias, or what one depends on directly, stands for itself and is declared, and once
  its definition has been read, what dangles in it is kept. -/
  names : ∀ n, (n ∈ env.aliasNames ∨ ∃ m ∈ env.aliasNames, ∃ deps,
      ((directDependencies env m).answer d).1 = .ok deps ∧ n ∈ deps) →
    env.normalize n = .ok n ∧ (∃ decl, env.aliasDecl n = .ok decl) ∧
      ∃ deps d', (directOf env n).answer d = (.ok deps, d') ∧ n ∈ d'.dangling.keys

variable {env : Environment} {guarded : Bool} {d : Dependencies}

/-- A declared alias, or what one depends on directly, is declared. -/
theorem mem_aliasNames_of_direct (h : Intact env guarded d) (he : env.WellKeyed) {n : TypeName}
    (hn : n ∈ env.aliasNames ∨ ∃ m ∈ env.aliasNames, ∃ deps,
      ((directDependencies env m).answer d).1 = .ok deps ∧ n ∈ deps) : n ∈ env.aliasNames := by
  rcases hn with hn | ⟨m, hm, deps, hdeps, hn⟩
  · exact hn
  · obtain ⟨_, d', hq, rfl, -⟩ := (faultless_directDependencies he m).returns
      (returns_intact he (Query.returns_directDependencies he hm) fun _ h => h.directDependencies m)
      d h
    rw [show (directDependencies env m).answer d = _ from hq] at hdeps
    cases hdeps
    exact mem_aliasNames_of_reaches hm (Relation.ReflTransGen.single hn)

theorem diagnosable (h : Intact env guarded d) (he : env.WellKeyed) : Diagnosable env d := by
  -- What is returned without strict access.
  have returns {α : Type} {strict : StrictQuery α} {q : Query α} {result : α → Prop}
      (hf : Faultless (Intact env guarded) strict q) (hr : Returns (Settled env guarded) q result)
      (hk : ∀ p, Stable env p → Query.Keeps p q) : ∃ a, (strict.answer d).1 = .ok a := by
    obtain ⟨a, d', hq, -⟩ := hf.returns (returns_intact he hr hk) d h
    exact ⟨a, congrArg Prod.fst hq⟩
  constructor
  case components =>
    exact returns (faultless_components he) (Query.returns_components he) fun _ h => h.components
  case cycles => exact returns (faultless_cycles he) (Query.returns_cycles he) fun _ h => h.cycles
  case dangling =>
    exact returns (faultless_dangling he) (Query.returns_dangling he) fun _ h => h.dangling
  case summary =>
    exact returns (faultless_summary he) (Query.returns_summary he) fun _ h => h.summary
  case closeAll =>
    obtain ⟨_, hq⟩ := returns (faultless_closeAll he) (Query.returns_closeAll env guarded)
      fun _ h => h.closeAll
    exact hq
  case order =>
    obtain ⟨hs, -⟩ := faultless_order he d h
    obtain ⟨d', hq, -⟩ := comesTo_iff.mp (Query.comesTo_order he) d h.1.1
    rw [hs, show (Query.order env).answer d = _ from hq]
    cases env.order guarded with
    | ok names => exact Or.inl ⟨names, rfl⟩
    | error e => exact Or.inr ⟨e, rfl⟩
  case names =>
    intro n hn
    have hname := mem_aliasNames_of_direct h he hn
    obtain ⟨decl, hdecl⟩ := Environment.mem_aliasNames_iff.mp hname
    have hread := h.1.1.readDirect hname
    have hanswer : (directOf env n).answer d =
        (.ok ((env.dependencyGraph guarded).succ n), (d.readDirect env n).2) := by
      rw [directOf, answer_ofAccess (readDirectStrict_eq he h.2 n), hread]
      rfl
    refine ⟨he.normalize hname [], ⟨decl, by rw [Environment.aliasDecl, hdecl]⟩, _, _, hanswer, ?_⟩
    exact (h.2.readDirect he n n).mpr (mem_direct_readDirect hread)

end StrictQuery

/-- Whatever has been registered before, and whatever has been asked since, with or without answers,
diagnostics cannot fail, except for a cycle that is in the way of an order. -/
theorem Environment.diagnosable_registerAll (rs : List Registration) (guarded : Bool)
    (history : List Inquiry) :
    StrictQuery.Diagnosable (registerAll {} rs)
      (Inquiry.askAllStrict (registerAll {} rs) history { guarded := guarded }) := by
  have he := (Reachable.empty.registerAll rs).wellKeyed
  exact StrictQuery.diagnosable
    (StrictQuery.intact_askAllStrict he history (Intact.initial _ guarded)) he

end TypeAlias
