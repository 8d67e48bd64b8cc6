import TypeAlias.Proofs.Dependencies.Following
import TypeAlias.Proofs.Dependencies.Queries
import TypeAlias.Proofs.Environment.Canonical

/-!
# Answers to queries

In an environment that does not change, every answer about a declared alias is what the direct
dependencies say, whatever was asked before. The direct dependencies make a graph, and all other
answers tell what is within reach in it.
-/

namespace TypeAlias

/-- The graph of the direct dependencies of the declared aliases. -/
def Environment.dependencyGraph (env : Environment) (guarded : Bool) : Digraph TypeName where
  succ n :=
    match env.aliases.get? n with
    | none => []
    | some decl => (Reading.ofDecl env guarded decl).found

namespace Dependencies

variable {env : Environment} {guarded : Bool} {d : Dependencies} {n m : TypeName}

theorem edges_initial (env : Environment) (guarded : Bool) (n : TypeName) :
    edges env { guarded := guarded } n = (env.dependencyGraph guarded).succ n := by
  have hn : ({ guarded := guarded } : Dependencies).direct.get? n = none := rfl
  unfold edges readDirect Environment.dependencyGraph Environment.aliasDecl
  rw [hn]
  dsimp only
  cases env.aliases.get? n <;> rfl

/-- What is within reach of a declared alias is declared. -/
theorem mem_aliasNames_of_reaches (hn : n ∈ env.aliasNames)
    (h : (env.dependencyGraph guarded).Reaches n m) : m ∈ env.aliasNames := by
  apply Digraph.Reaches.keeps (p := (· ∈ env.aliasNames)) ?_ h hn
  intro a _ b hb
  unfold Environment.dependencyGraph at hb
  dsimp only at hb
  split at hb
  · exact absurd hb List.not_mem_nil
  · exact Reading.mem_found_ofDecl hb

/-- What is kept agrees with the graph of the environment. -/
structure Settled (env : Environment) (guarded : Bool) (d : Dependencies) : Prop where
  invariant : Invariant d
  edges : ∀ n, d.edges env n = (env.dependencyGraph guarded).succ n

namespace Settled

theorem initial (env : Environment) (guarded : Bool) :
    Settled env guarded { guarded := guarded } :=
  ⟨Invariant.initial guarded, edges_initial env guarded⟩

/-- In an environment that does not change, no query disturbs the agreement. -/
theorem stable (env : Environment) (guarded : Bool) : Stable env (Settled env guarded) := by
  constructor
  · intro d notice h
    constructor
    · exact h.invariant.grows (grows_tell d notice)
    · exact fun n => (edges_tell env d notice n).trans (h.edges n)
  · intro d name h
    constructor
    · exact h.invariant.grows (grows_readDirect env d name)
    · exact fun n => (edges_readDirect env d name n).trans (h.edges n)
  · intro d name h
    obtain ⟨hi, _, he, _⟩ := h.invariant.readReached env name
    constructor
    · exact hi
    · exact fun n => (he n).trans (h.edges n)

theorem mem_succ_cached (h : Settled env guarded d) (hn : n ∈ d.reached.keys) (m : TypeName) :
    m ∈ d.cached.succ n ↔ m ∈ (env.dependencyGraph guarded).succ n := by
  rw [← h.edges, edges_of_mem (h.invariant.read n hn)]

theorem leadsTo_iff (h : Settled env guarded d) (hn : n ∈ d.reached.keys) :
    d.cached.LeadsTo n m ↔ (env.dependencyGraph guarded).LeadsTo n m :=
  Digraph.leadsTo_congr (p := (· ∈ d.reached.keys)) (fun _ => h.mem_succ_cached)
    h.invariant.closed hn

theorem mutual_iff (h : Settled env guarded d) (hn : n ∈ d.reached.keys) :
    d.cached.LeadsTo n m ∧ d.cached.LeadsTo m n ↔
      (env.dependencyGraph guarded).LeadsTo n m ∧ (env.dependencyGraph guarded).LeadsTo m n :=
  Digraph.mutual_congr (p := (· ∈ d.reached.keys)) (fun _ => h.mem_succ_cached)
    h.invariant.closed hn

/-- A declared alias can be read. -/
theorem readDirect (h : Settled env guarded d) (hn : n ∈ env.aliasNames) :
    (d.readDirect env n).1 = .ok ((env.dependencyGraph guarded).succ n) := by
  rw [← h.edges]
  exact readDirect_ok hn

/-- A search through the open aliases keeps to the graph. -/
theorem reaches_of_openGraph (h : Settled env guarded d) (hr : (d.openGraph env).Reaches n m) :
    (env.dependencyGraph guarded).Reaches n m := by
  apply Digraph.Reaches.transfer (p := fun _ => True) ?_ hr trivial
  intro a _ b hb
  by_cases ha : a ∈ d.reached.keys
  · rw [succ_openGraph_of_mem ha] at hb
    exact absurd hb List.not_mem_nil
  · rw [succ_openGraph_of_not_mem ha, h.edges] at hb
    exact ⟨trivial, hb⟩

/-- A declared alias can be closed. -/
theorem readReached (h : Settled env guarded d) (hn : n ∈ env.aliasNames) :
    ∃ t, (d.readReached env n).1 = .ok t ∧
      (d.readReached env n).2.reached.get? n = some t := by
  have hreach : ∀ m, (d.openGraph env).Reaches n m → m ∈ env.aliasNames := fun _ hm =>
    mem_aliasNames_of_reaches hn (h.reaches_of_openGraph hm)
  obtain ⟨t, ht⟩ := readReached_ok hreach
  obtain ⟨_, _, _, hr⟩ := h.invariant.readReached env n
  exact ⟨t, ht, hr t ht⟩

end Settled

end Dependencies

namespace Query

variable {α : Type} {env : Environment} {d : Dependencies} {n : TypeName}

theorem answer_canonical (hn : env.normalize n = .ok n) (f : TypeName → Query α)
    (d : Dependencies) : (canonical env n >>= f).answer d = (f n).answer d := by
  rw [answer_bind, canonical, answer_ofLookup, hn]
  rfl

theorem answer_reachedOf {t : Table TypeName Bool} (h : (d.readReached env n).1 = .ok t)
    (f : Table TypeName Bool → Query α) :
    (reachedOf env n >>= f).answer d = (f t).answer (d.readReached env n).2 := by
  rw [answer_bind, reachedOf, answer_ofLookup, h]
  rfl

theorem returns_directOf (hn : n ∈ env.aliasNames) :
    Returns (Dependencies.Settled env guarded) (directOf env n) fun _ => True := by
  apply Keeps.returns ((Dependencies.Settled.stable env guarded).directOf n)
  intro d hd
  rw [directOf, answer_ofLookup, hd.readDirect hn]
  exact ⟨_, rfl, trivial⟩

theorem returns_reachedOf (hn : n ∈ env.aliasNames) :
    Returns (Dependencies.Settled env guarded) (reachedOf env n) fun _ => True := by
  apply Keeps.returns ((Dependencies.Settled.stable env guarded).reachedOf n)
  intro d hd
  obtain ⟨closure, hclosure, -⟩ := hd.readReached hn
  rw [reachedOf, answer_ofLookup, hclosure]
  exact ⟨_, rfl, trivial⟩

/-- The answers about an alias tell what is within reach of it in a graph. -/
structure TellsReach (env : Environment) (g : Digraph TypeName) (d : Dependencies) (n : TypeName) :
    Prop where
  directDependencies : ((directDependencies env n).answer d).1 = .ok (g.succ n)
  dependencies : ∃ deps, ((dependencies env n).answer d).1 = .ok deps ∧ deps.Nodup ∧
    ∀ m, m ∈ deps ↔ g.LeadsTo n m
  isCircular : ∃ b, ((isCircular env n).answer d).1 = .ok b ∧ (b = true ↔ g.LeadsTo n n)
  transitiveDependencies : ∃ t, ((transitiveDependencies env n).answer d).1 = .ok t ∧ ∀ m,
    (t.get? m = some true ↔ g.LeadsTo n m ∧ g.LeadsTo m n) ∧
    (t.get? m = some false ↔ g.LeadsTo n m ∧ ¬ g.LeadsTo m n)
  cycle : ∃ c, ((cycle env n).answer d).1 = .ok c ∧ c.Nodup ∧
    (g.LeadsTo n n → ∀ m, m ∈ c ↔ g.LeadsTo n m ∧ g.LeadsTo m n) ∧ (¬ g.LeadsTo n n → c = [])

end Query

namespace Dependencies.Settled

open Query

variable {env : Environment} {guarded : Bool} {d : Dependencies} {n : TypeName}

/-- What is settled answers every query about a declared alias. -/
theorem tellsReach (h : Settled env guarded d) (he : env.WellKeyed) (hn : n ∈ env.aliasNames) :
    TellsReach env (env.dependencyGraph guarded) d n := by
  have hcan := he.normalize hn []
  obtain ⟨t, ht, hrt⟩ := h.readReached hn
  have h' := (stable env guarded).reached d n h
  have hnr : n ∈ (d.readReached env n).2.reached.keys := Table.mem_keys_iff_get?.mpr ⟨t, hrt⟩
  have hkeys (m : TypeName) : m ∈ t.keys ↔ (env.dependencyGraph guarded).LeadsTo n m := by
    rw [h'.invariant.closure n t hrt m, h'.leadsTo_iff hnr]
  have hflag (m : TypeName) : t.get? m = some true ↔
      (env.dependencyGraph guarded).LeadsTo n m ∧ (env.dependencyGraph guarded).LeadsTo m n := by
    rw [h'.invariant.flag n t hrt m, h'.mutual_iff hnr]
  have htrans : (transitiveDependencies env n).answer d = (.ok t, (d.readReached env n).2) := by
    rw [transitiveDependencies, answer_canonical hcan, reachedOf, answer_ofLookup, ht]
    rfl
  constructor
  · rw [directDependencies, answer_canonical hcan, directOf, answer_ofLookup, h.readDirect hn]
    rfl
  · refine ⟨t.keys, ?_, t.nodup_keys, hkeys⟩
    rw [dependencies, answer_bind, htrans]
    rfl
  · refine ⟨t.contains n, ?_, ?_⟩
    · rw [isCircular, answer_canonical hcan, answer_reachedOf ht]
      rfl
    · rw [Table.contains_iff, hkeys]
  · refine ⟨t, by rw [htrans], fun m => ⟨hflag m, ?_⟩⟩
    rw [← hkeys, Table.mem_keys_iff_get?]
    have hm := hflag m
    rw [← hkeys, Table.mem_keys_iff_get?] at hm
    cases hb : t.get? m with
    | none => simp
    | some b => cases b <;> simp_all
  · refine ⟨((d.readReached env n).2.cycles.get? n).getD [], ?_, ?_⟩
    · rw [cycle, answer_canonical hcan, answer_reachedOf ht, answer_bind, answer_get]
      rfl
    · cases hc : (d.readReached env n).2.cycles.get? n with
      | none =>
        refine ⟨List.nodup_nil, fun hcirc => ?_, fun _ => rfl⟩
        rw [Table.get?_eq_none_iff, h'.invariant.circular, h'.leadsTo_iff hnr] at hc
        exact absurd ⟨hnr, hcirc⟩ hc
      | some c =>
        obtain ⟨hnodup, hm⟩ := h'.invariant.cycle n c hc
        refine ⟨hnodup, fun _ m => (hm m).trans (h'.mutual_iff hnr), fun hcirc => ?_⟩
        have hmem := (h'.invariant.circular n).mp (Table.mem_keys_iff_get?.mpr ⟨c, hc⟩)
        rw [h'.leadsTo_iff hnr] at hmem
        exact absurd hmem.2 hcirc

end Dependencies.Settled

/-- In an environment that does not change, what is asked about a declared alias is answered by what
is within reach of it, whatever has been asked before. -/
theorem Environment.Reachable.tellsReach_askAll {env : Environment} (h : env.Reachable) (guarded : Bool)
    (history : List Question) {n : TypeName} (hn : n ∈ env.aliasNames) :
    Query.TellsReach env (env.dependencyGraph guarded)
      (Question.askAll env history { guarded := guarded }) n := by
  have hsettled := (Dependencies.Settled.stable env guarded).askAll history
    (Dependencies.Settled.initial env guarded)
  exact hsettled.tellsReach h.wellKeyed hn

/-- Two aliases that refer to each other, and one that refers to itself and to nothing declared. -/
def Environment.reciprocal : Environment where
  aliases := .ofList [
    (⟨"a", [], true⟩, ⟨⟨"a", [], true⟩, .union [.aliasInstance ⟨"b", [], false⟩ [],
      .aliasInstance ⟨"c", [], false⟩ []], []⟩),
    (⟨"b", [], true⟩, ⟨⟨"b", [], true⟩, .optional (.aliasInstance ⟨"a", [], false⟩ []), []⟩),
    (⟨"c", ["m"], true⟩, ⟨⟨"c", ["m"], true⟩, .tuple [.aliasInstance ⟨"c", [], false⟩ [],
      .aliasInstance ⟨"d", [], false⟩ []], []⟩)]
  modules := .ofList [(["k"], ["m"])]

theorem Environment.tellsReach_askAll_reciprocal :
    reciprocal.Reachable ∧ ⟨"b", [], true⟩ ∈ reciprocal.aliasNames ∧
      Query.TellsReach reciprocal (reciprocal.dependencyGraph true)
        (Question.askAll reciprocal [.cycle (.text "k::c"), .isCircular (.text "nowhere"),
          .danglingReferences (.name ⟨"c", ["m"], false⟩), .closeAll] { guarded := true })
        ⟨"b", [], true⟩ := by
  have hbuild : build [(⟨"k", [], false⟩, ⟨"m", [], false⟩)]
      [⟨⟨"a", [], false⟩, .union [.aliasInstance ⟨"b", [], false⟩ [],
          .aliasInstance ⟨"c", [], false⟩ []], []⟩,
        ⟨⟨"b", [], false⟩, .optional (.aliasInstance ⟨"a", [], false⟩ []), []⟩,
        ⟨⟨"c", ["k"], false⟩, .tuple [.aliasInstance ⟨"c", [], false⟩ [],
          .aliasInstance ⟨"d", [], false⟩ []], []⟩] = .ok reciprocal := rfl
  have hmem : ⟨"b", [], true⟩ ∈ reciprocal.aliasNames := by decide
  exact ⟨reachable_build hbuild, hmem, (reachable_build hbuild).tellsReach_askAll true _ hmem⟩

end TypeAlias
