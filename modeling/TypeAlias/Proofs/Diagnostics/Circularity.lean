import TypeAlias.Diagnostics
import TypeAlias.Proofs.Dependencies.Answers
import TypeAlias.Proofs.Environment.Registration
import TypeAlias.Proofs.Graph.Order

/-!
# Which aliases are circular

There are three ways to find out what is circular: to ask each alias whether it depends on itself,
to look for the components that hold a cycle, and to try to put the aliases in order. In an
environment that does not change they agree, whatever has been asked before.
-/

namespace TypeAlias

namespace Environment

variable {env : Environment} {guarded : Bool} {n m : TypeName}

/-- The graph of the direct dependencies, in the order of the written names. -/
def sortedGraph (env : Environment) (guarded : Bool) : FiniteDigraph TypeName :=
  Dependencies.graph env { guarded := guarded }

/-- What a search from all aliases does. -/
def sortedTrace (env : Environment) (guarded : Bool) : Trace TypeName :=
  (env.sortedGraph guarded).trace env.aliasNames

/-- The cycles among the aliases, sinks first. -/
def cycles (env : Environment) (guarded : Bool) : List AliasCycle :=
  ((env.sortedTrace guarded).components.filter fun c =>
    decide ((env.sortedGraph guarded).HoldsCycle c)).map AliasCycle.mk

/-- The aliases, each after those it refers to, or the cycle that is in the way. -/
def order (env : Environment) (guarded : Bool) :
    Except (CyclicDependency TypeName) (List TypeName) :=
  (env.sortedTrace guarded).order

open Classical in
/-- The aliases that depend on themselves. -/
noncomputable def circular (env : Environment) (guarded : Bool) : List TypeName :=
  env.aliasNames.filter fun n => decide ((env.dependencyGraph guarded).LeadsTo n n)

/-- Sorting the dependencies of an alias does not change which they are. -/
theorem mem_succ_sortedGraph (he : env.WellKeyed) (hn : n ∈ env.aliasNames) (m : TypeName) :
    m ∈ (env.sortedGraph guarded).succ n ↔ m ∈ (env.dependencyGraph guarded).succ n := by
  unfold sortedGraph Dependencies.graph
  dsimp only
  rw [he.normalize hn []]
  dsimp only
  rw [sortByText, List.mem_mergeSort, Dependencies.edges_initial]

theorem mem_aliasNames_of_mem_succ (he : env.WellKeyed) (n : TypeName) (hn : n ∈ env.aliasNames) :
    ∀ m ∈ (env.sortedGraph guarded).succ n, m ∈ env.aliasNames := by
  intro m hm
  rw [mem_succ_sortedGraph he hn] at hm
  exact Dependencies.mem_aliasNames_of_reaches hn (Relation.ReflTransGen.single hm)

theorem leadsTo_sortedGraph (he : env.WellKeyed) (hn : n ∈ env.aliasNames) :
    (env.sortedGraph guarded).LeadsTo n m ↔ (env.dependencyGraph guarded).LeadsTo n m :=
  Digraph.leadsTo_congr (p := (· ∈ env.aliasNames)) (fun _ => mem_succ_sortedGraph he)
    (mem_aliasNames_of_mem_succ he) hn

theorem mutual_sortedGraph (he : env.WellKeyed) (hn : n ∈ env.aliasNames) :
    (env.sortedGraph guarded).LeadsTo n m ∧ (env.sortedGraph guarded).LeadsTo m n ↔
      (env.dependencyGraph guarded).LeadsTo n m ∧ (env.dependencyGraph guarded).LeadsTo m n :=
  Digraph.mutual_congr (p := (· ∈ env.aliasNames)) (fun _ => mem_succ_sortedGraph he)
    (mem_aliasNames_of_mem_succ he) hn

/-- A search from all aliases finds no other names. -/
theorem mem_reachable_iff (he : env.WellKeyed) :
    n ∈ (env.sortedGraph guarded).reachable env.aliasNames ↔ n ∈ env.aliasNames := by
  constructor
  · rintro ⟨s, hs, hr⟩
    exact hr.keeps (p := (· ∈ env.aliasNames)) (mem_aliasNames_of_mem_succ he) hs
  · exact Digraph.mem_reachable_of_mem

theorem decomposition_sortedTrace (env : Environment) (guarded : Bool) :
    (env.sortedGraph guarded).Decomposition env.aliasNames
      (env.sortedTrace guarded).components :=
  Digraph.decomposition_trace? ((env.sortedGraph guarded).trace?_eq env.aliasNames)

theorem mem_aliasNames_of_mem_component (he : env.WellKeyed) {c : List TypeName}
    (hc : c ∈ (env.sortedTrace guarded).components) (hn : n ∈ c) : n ∈ env.aliasNames :=
  (mem_reachable_iff he).mp ((decomposition_sortedTrace env guarded).mem_reachable hc hn)

theorem mem_circular_iff :
    n ∈ env.circular guarded ↔ n ∈ env.aliasNames ∧ (env.dependencyGraph guarded).LeadsTo n n := by
  simp [circular]

theorem mem_cycles_iff {c : AliasCycle} :
    c ∈ env.cycles guarded ↔ c.members ∈ (env.sortedTrace guarded).components ∧
      (env.sortedGraph guarded).HoldsCycle c.members := by
  rw [cycles, List.mem_map]
  constructor
  · rintro ⟨members, hm, rfl⟩
    rw [List.mem_filter, decide_eq_true_iff] at hm
    exact hm
  · intro hc
    refine ⟨c.members, ?_, rfl⟩
    rw [List.mem_filter, decide_eq_true_iff]
    exact hc

/-- No alias is in two cycles. -/
theorem disjoint_cycles (env : Environment) (guarded : Bool) :
    (env.cycles guarded).Pairwise fun c c' => c.members.Disjoint c'.members := by
  rw [cycles, List.pairwise_map]
  exact (List.nodup_flatten.mp (decomposition_sortedTrace env guarded).nodup).2.filter _

/-- The aliases in the cycles are the circular ones. -/
theorem mem_members_cycles_iff (he : env.WellKeyed) :
    (∃ c ∈ env.cycles guarded, n ∈ c.members) ↔ n ∈ env.circular guarded := by
  have hd := decomposition_sortedTrace env guarded
  rw [mem_circular_iff]
  constructor
  · rintro ⟨c, hc, hn⟩
    obtain ⟨hc, hcycle⟩ := mem_cycles_iff.mp hc
    have hname := mem_aliasNames_of_mem_component he hc hn
    refine ⟨hname, (leadsTo_sortedGraph he hname).mp ?_⟩
    exact (hd.leadsTo_self_iff_holdsCycle hc hn).mpr hcycle
  · rintro ⟨hname, hself⟩
    obtain ⟨c, hc, hn⟩ := List.mem_flatten.mp
      ((hd.mem_iff n).mpr ((mem_reachable_iff he).mpr hname))
    refine ⟨⟨c⟩, mem_cycles_iff.mpr ⟨hc, ?_⟩, hn⟩
    exact (hd.leadsTo_self_iff_holdsCycle hc hn).mp ((leadsTo_sortedGraph he hname).mpr hself)

/-- There are circular aliases just when there are cycles. -/
theorem circular_eq_nil_iff (he : env.WellKeyed) :
    env.circular guarded = [] ↔ env.cycles guarded = [] := by
  rw [List.eq_nil_iff_forall_not_mem, List.eq_nil_iff_forall_not_mem]
  constructor
  · intro h c hc
    have hcomp := (mem_cycles_iff.mp hc).1
    obtain ⟨n, hn⟩ := List.exists_mem_of_ne_nil _
      ((decomposition_sortedTrace env guarded).ne_nil _ hcomp)
    exact h n ((mem_members_cycles_iff he).mp ⟨c, hc, hn⟩)
  · intro h n hn
    obtain ⟨c, hc, _⟩ := (mem_members_cycles_iff he).mpr hn
    exact h c hc

/-- The members of a cycle are what one of them leads to and back from. -/
theorem mem_members_iff_mutual (he : env.WellKeyed) {c : AliasCycle}
    (hc : c ∈ env.cycles guarded) (hn : n ∈ c.members) :
    m ∈ c.members ↔
      (env.dependencyGraph guarded).LeadsTo n m ∧ (env.dependencyGraph guarded).LeadsTo m n := by
  obtain ⟨hc, hcycle⟩ := mem_cycles_iff.mp hc
  rw [(decomposition_sortedTrace env guarded).mem_iff_mutual hc hcycle hn,
    mutual_sortedGraph he (mem_aliasNames_of_mem_component he hc hn)]

/-- The first cycle is what stands in the way of an order. -/
theorem head?_cycles (env : Environment) (guarded : Bool) :
    (env.cycles guarded).head? = (env.sortedTrace guarded).firstCycle?.map AliasCycle.mk := by
  have ht := Digraph.deliver_trace? ((env.sortedGraph guarded).trace?_eq env.aliasNames)
  have hfirst : (env.sortedTrace guarded).firstCycle? = (env.sortedTrace guarded).components.find?
      fun c => decide ((env.sortedGraph guarded).HoldsCycle c) := congrArg Prod.snd ht
  rw [cycles, List.head?_map, List.head?_filter, hfirst]

/-- There is an order when there is no cycle; otherwise the first cycle is in the way. -/
theorem order_eq (env : Environment) (guarded : Bool) :
    match env.cycles guarded with
    | [] => ∃ names, env.order guarded = .ok names
    | c :: _ => env.order guarded = .error ⟨c.members⟩ := by
  have hfirst := head?_cycles env guarded
  unfold order Trace.order
  cases hc : env.cycles guarded with
  | nil =>
    rw [hc, List.head?_nil, eq_comm, Option.map_eq_none_iff] at hfirst
    rw [hfirst]
    exact ⟨_, rfl⟩
  | cons c cs =>
    rw [hc, List.head?_cons, eq_comm, Option.map_eq_some_iff] at hfirst
    obtain ⟨members, hfirst, rfl⟩ := hfirst
    rw [hfirst]

/-- There are no cycles if aliases refer only to what is of a lower rank. -/
theorem cycles_eq_nil_of_rank (he : env.WellKeyed) (rank : TypeName → Nat)
    (h : ∀ n ∈ env.aliasNames, ∀ m ∈ (env.dependencyGraph guarded).succ n, rank m < rank n) :
    env.cycles guarded = [] := by
  rw [← circular_eq_nil_iff he, List.eq_nil_iff_forall_not_mem]
  intro n hn
  obtain ⟨hname, hself⟩ := mem_circular_iff.mp hn
  have hlt {m : TypeName} (hm : (env.dependencyGraph guarded).LeadsTo n m) : rank m < rank n := by
    induction hm with
    | single hedge => exact h n hname _ hedge
    | tail hm hedge ih =>
      have hmid := Dependencies.mem_aliasNames_of_reaches hname hm.to_reflTransGen
      exact (h _ hmid _ hedge).trans ih
  exact (hlt hself).false

end Environment

namespace Dependencies.Settled

variable {env : Environment} {guarded : Bool} {d : Dependencies} {n : TypeName}

theorem graph_eq (h : Settled env guarded d) : d.graph env = env.sortedGraph guarded := by
  apply FiniteDigraph.eq_of_succ
  intro n
  unfold Environment.sortedGraph Dependencies.graph
  dsimp only
  cases env.normalize n with
  | error e => rfl
  | ok key =>
    dsimp only
    rw [h.edges, edges_initial]

/-- What has been asked before does not matter to a search from all aliases. -/
theorem trace_eq (h : Settled env guarded d) : d.trace env = env.sortedTrace guarded := by
  rw [Dependencies.trace, h.graph_eq]
  rfl

end Dependencies.Settled

namespace Query

open Dependencies Environment

variable {env : Environment} {guarded : Bool} {n : TypeName}

theorem returns_tell (notice : Notice) :
    Returns (Settled env guarded) (tell notice) fun _ => True :=
  returns_modify fun d => (Settled.stable env guarded).tell d notice

/-- All declared aliases can be closed. -/
theorem returns_closeAll (env : Environment) (guarded : Bool) :
    Returns (Settled env guarded) (closeAll env) fun _ => True := by
  have hread : Returns (Settled env guarded) (readAll env) fun _ => True :=
    returns_forM fun n hn => (returns_directOf hn).discard
  apply hread.bind
  intro _ _
  apply (returns_forM fun n hn => (returns_reachedOf hn).discard).bind
  exact fun _ _ => returns_get.bind fun _ _ => returns_tell _

theorem returns_directDependencies (he : env.WellKeyed) (hn : n ∈ env.aliasNames) :
    Returns (Settled env guarded) (directDependencies env n)
      (· = (env.dependencyGraph guarded).succ n) :=
  Keeps.returns ((Settled.stable env guarded).directDependencies n) fun _ hd =>
    ⟨_, (hd.tellsReach he hn).directDependencies, rfl⟩

theorem returns_danglingReferences (he : env.WellKeyed) (hn : n ∈ env.aliasNames) :
    Returns (Settled env guarded) (danglingReferences env n) fun _ => True := by
  have hcanonical : Returns (Settled env guarded) (canonical env n) (· = n) := fun d hd =>
    ⟨n, d, by rw [canonical, he.normalize hn []]; rfl, rfl, hd⟩
  apply hcanonical.bind
  rintro _ rfl
  apply (returns_directOf hn).bind
  exact fun _ _ => returns_get.bind fun _ _ => returns_pure trivial

theorem returns_circular (he : env.WellKeyed) :
    Returns (Settled env guarded) (circular env) (· = env.circular guarded) := by
  apply returns_filterM
  intro n hn
  apply Keeps.returns ((Settled.stable env guarded).isCircular n)
  intro d hd
  obtain ⟨b, hb, hiff⟩ := (hd.tellsReach he hn).isCircular
  refine ⟨b, hb, ?_⟩
  rw [Bool.eq_iff_iff, hiff]
  simp

/-- A search reads declared aliases only. -/
theorem returns_attend (he : env.WellKeyed) {m : Moment TypeName}
    (hm : m ∈ env.sortedTrace guarded) :
    Returns (Settled env guarded) (attend env m) fun _ => True := by
  obtain ⟨event, s⟩ := m
  cases event with
  | emitted component => exact returns_tell _
  | reached n =>
    have hn : n ∈ (env.sortedTrace guarded).nodes := List.mem_filterMap.mpr ⟨_, hm, rfl⟩
    have hr := Digraph.mem_reachable_trace?
      ((env.sortedGraph guarded).trace?_eq env.aliasNames) hn
    exact (returns_directDependencies he ((mem_reachable_iff he).mp hr)).discard

theorem returns_components (he : env.WellKeyed) :
    Returns (Settled env guarded) (components env)
      (· = (env.sortedTrace guarded).components) := by
  apply returns_get.bind
  intro d hd
  rw [hd.trace_eq]
  exact (returns_forM fun m hm => returns_attend he hm).bind fun _ _ => returns_pure rfl

theorem returns_cycleOfComponent (he : env.WellKeyed) {c : List TypeName}
    (hc : c ∈ (env.sortedTrace guarded).components) :
    Returns (Settled env guarded) (cycleOfComponent env c)
      (· = if (env.sortedGraph guarded).HoldsCycle c then some ⟨c⟩ else none) := by
  match c, (decomposition_sortedTrace env guarded).ne_nil c hc with
  | head :: rest, _ =>
    have hhead := mem_aliasNames_of_mem_component he hc List.mem_cons_self
    apply (returns_directDependencies he hhead).bind
    rintro _ rfl
    apply returns_pure
    have hcycle :
        (rest.isEmpty && !((env.dependencyGraph guarded).succ head).contains head) = true ↔
          ¬ (env.sortedGraph guarded).HoldsCycle (head :: rest) := by
      cases rest with
      | nil =>
        have hloop : head ∈ (env.sortedGraph guarded).succ head ↔
            head ∈ (env.dependencyGraph guarded).succ head := mem_succ_sortedGraph he hhead head
        simp [Digraph.HoldsCycle, hloop]
      | cons next rest => simp [Digraph.HoldsCycle]
    split
    · next hb => exact (if_neg (hcycle.mp hb)).symm
    · next hb => exact (if_pos (not_not.mp (mt hcycle.mpr hb))).symm

theorem returns_cycles (he : env.WellKeyed) :
    Returns (Settled env guarded) (cycles env) (· = env.cycles guarded) := by
  apply (returns_components he).bind
  rintro _ rfl
  apply (returns_filterMapM fun c hc => returns_cycleOfComponent he hc).imp
  rintro _ rfl
  rw [Environment.cycles]
  induction (env.sortedTrace guarded).components with
  | nil => rfl
  | cons c cs ih =>
    by_cases hc : (env.sortedGraph guarded).HoldsCycle c <;> simp [hc, ih]

theorem returns_dangling (he : env.WellKeyed) :
    Returns (Settled env guarded) (dangling env) fun _ => True := by
  have hfound : ∀ n ∈ env.aliasNames, Returns (Settled env guarded)
      (do return (← danglingReferences env n).map fun ref => (⟨n, ref⟩ : DanglingReference))
      fun _ => True := fun n hn =>
    (returns_danglingReferences he hn).bind fun _ _ => returns_pure trivial
  exact (returns_mapM hfound).bind fun _ _ => returns_pure trivial

theorem returns_summary (he : env.WellKeyed) :
    Returns (Settled env guarded) (summary env) fun s =>
      s.circular = env.circular guarded ∧ s.cycles = env.cycles guarded := by
  apply (returns_circular he).bind
  intro circ hcirc
  apply (returns_cycles he).bind
  intro cycs hcycs
  apply (returns_dangling he).bind
  exact fun _ _ => returns_pure ⟨hcirc, hcycs⟩

theorem comesTo_order (he : env.WellKeyed) :
    ComesTo (Settled env guarded) (order env) ((env.order guarded).mapError .cyclic) := by
  apply returns_get.bind_comesTo
  intro d hd
  rw [hd.trace_eq]
  apply (returns_forM fun m hm => returns_attend he (mem_of_mem_takeThrough hm)).bind_comesTo
  intro _ _
  rw [Environment.order]
  cases (env.sortedTrace guarded).order with
  | ok names => exact returns_pure rfl
  | error e => exact (returns_tell _).bind_comesTo fun _ _ => fails_throw _

/-- The answers about circularity agree: `names` are the circular aliases, `groups` their cycles. -/
structure Agree (env : Environment) (d : Dependencies) (names : List TypeName)
    (groups : List AliasCycle) : Prop where
  circular : ((Query.circular env).answer d).1 = .ok names
  cycles : ((Query.cycles env).answer d).1 = .ok groups
  summary : ∃ s, ((Query.summary env).answer d).1 = .ok s ∧ s.circular = names ∧
    s.cycles = groups
  isCircular : ∀ n, n ∈ names ↔
    n ∈ env.aliasNames ∧ ((Query.isCircular env n).answer d).1 = .ok true
  disjoint : groups.Pairwise fun c c' => c.members.Disjoint c'.members
  union : ∀ n, (∃ c ∈ groups, n ∈ c.members) ↔ n ∈ names
  /-- Each member of a cycle tells the same cycle. -/
  cycle : ∀ c ∈ groups, ∀ n ∈ c.members, ∃ members,
    ((Query.cycle env n).answer d).1 = .ok members ∧ members.Perm c.members
  /-- There is an order unless there are cycles; then the first one is in the way. -/
  order :
    match groups with
    | [] => ∃ nodes, ((Query.order env).answer d).1 = .ok nodes
    | c :: _ => ((Query.order env).answer d).1 = .error (.cyclic ⟨c.members⟩)

end Query

/-- What can be asked about one alias, or about all of them. -/
inductive Inquiry where
  | one (q : Question)
  | components
  | order
  | cycles
  | dangling
  | circular
  | summary

namespace Inquiry

/-- Asks for the sake of what is known afterwards. -/
def ask (env : Environment) : Inquiry → Query Unit
  | one q => q.ask env
  | components => discard (Query.components env)
  | order => discard (Query.order env)
  | cycles => discard (Query.cycles env)
  | dangling => discard (Query.dangling env)
  | circular => discard (Query.circular env)
  | summary => discard (Query.summary env)

/-- What is known after some inquiries, with or without answers. -/
def askAll (env : Environment) (history : List Inquiry) (d : Dependencies) : Dependencies :=
  history.foldl (fun d i => ((i.ask env).answer d).2) d

end Inquiry

namespace Dependencies.Settled

variable {env : Environment} {guarded : Bool} {d : Dependencies} {n : TypeName}

open Query in
theorem ask (he : env.WellKeyed) (i : Inquiry) : Keeps (Settled env guarded) (i.ask env) := by
  cases i with
  | one q => exact (stable env guarded).ask q
  | components => exact keeps_discard (keeps_of_returns (returns_components he))
  | order => exact keeps_discard (keeps_of_comesTo (comesTo_order he))
  | cycles => exact keeps_discard (keeps_of_returns (returns_cycles he))
  | dangling => exact keeps_discard (keeps_of_returns (returns_dangling he))
  | circular => exact keeps_discard (keeps_of_returns (returns_circular he))
  | summary => exact keeps_discard (keeps_of_returns (returns_summary he))

/-- Any number of inquiries, in any order. -/
theorem askAll (h : Settled env guarded d) (he : env.WellKeyed) (history : List Inquiry) :
    Settled env guarded (Inquiry.askAll env history d) := by
  induction history generalizing d with
  | nil => exact h
  | cons i history ih => exact ih (ask he i d h)

theorem isCircular_iff (h : Settled env guarded d) (he : env.WellKeyed) :
    n ∈ env.circular guarded ↔
      n ∈ env.aliasNames ∧ ((Query.isCircular env n).answer d).1 = .ok true := by
  rw [Environment.mem_circular_iff]
  apply and_congr_right
  intro hn
  obtain ⟨b, hb, hiff⟩ := (h.tellsReach he hn).isCircular
  rw [← hiff, hb, Except.ok.injEq]

theorem cycle_perm (h : Settled env guarded d) (he : env.WellKeyed) {c : AliasCycle}
    (hc : c ∈ env.cycles guarded) (hn : n ∈ c.members) :
    ∃ members, ((Query.cycle env n).answer d).1 = .ok members ∧ members.Perm c.members := by
  have hcomp := (Environment.mem_cycles_iff.mp hc).1
  have hname := Environment.mem_aliasNames_of_mem_component he hcomp hn
  have hmem (m : TypeName) := Environment.mem_members_iff_mutual (m := m) he hc hn
  have hnodup : c.members.Nodup :=
    (List.nodup_flatten.mp (Environment.decomposition_sortedTrace env guarded).nodup).1 _ hcomp
  obtain ⟨members, hq, hn', hcirc, -⟩ := (h.tellsReach he hname).cycle
  refine ⟨members, hq, (List.perm_ext_iff_of_nodup hn' hnodup).mpr fun m => ?_⟩
  rw [hcirc ((hmem n).mp hn).1, hmem]

/-- What is settled answers all questions about circularity in agreement. -/
theorem agree (h : Settled env guarded d) (he : env.WellKeyed) :
    Query.Agree env d (env.circular guarded) (env.cycles guarded) := by
  constructor
  case circular =>
    obtain ⟨_, d', hq, rfl, -⟩ := Query.returns_circular he d h
    exact congrArg Prod.fst hq
  case cycles =>
    obtain ⟨_, d', hq, rfl, -⟩ := Query.returns_cycles he d h
    exact congrArg Prod.fst hq
  case summary =>
    obtain ⟨s, d', hq, hs, -⟩ := Query.returns_summary he d h
    exact ⟨s, congrArg Prod.fst hq, hs⟩
  case isCircular => exact fun n => h.isCircular_iff he
  case disjoint => exact env.disjoint_cycles guarded
  case union => exact fun n => Environment.mem_members_cycles_iff he
  case cycle => exact fun c hc n hn => h.cycle_perm he hc hn
  case order =>
    obtain ⟨d', hq, -⟩ := comesTo_iff.mp (Query.comesTo_order he) d h
    have hanswer : ((Query.order env).answer d).1 = (env.order guarded).mapError .cyclic :=
      congrArg Prod.fst hq
    have horder := env.order_eq guarded
    rw [hanswer]
    cases hc : env.cycles guarded with
    | nil =>
      rw [hc] at horder
      obtain ⟨names, horder⟩ := horder
      exact ⟨names, by rw [horder]; rfl⟩
    | cons c cs =>
      rw [hc] at horder
      rw [horder]
      rfl

end Dependencies.Settled

end TypeAlias
