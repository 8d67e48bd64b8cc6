import Mathlib.Data.Finset.Dedup
import TypeAlias.Definitions.Document
import TypeAlias.Proofs.Diagnostics.Inquiries
import TypeAlias.Proofs.Environment.RegistrationOrder

/-!
# The order of a definitions document

The order in which a document lists its module aliases and its aliases decides in which order names
are found and told, but not what is found.
-/

namespace TypeAlias

open Dependencies

/-- Two summaries say the same, in whatever order. -/
structure Summary.Alike (s s' : Summary) : Prop where
  aliases : s.aliases = s'.aliases
  circular : s.circular.Perm s'.circular
  /-- There are as many cycles, with the same members. -/
  cycles : (s.cycles.map fun c => c.members.toFinset).Perm
    (s'.cycles.map fun c => c.members.toFinset)
  dangling : s.dangling.Perm s'.dangling

namespace Environment

variable {env env' : Environment} {guarded : Bool}

/-- Each cycle comes once. -/
theorem nodup_cycles (env : Environment) (guarded : Bool) :
    ((env.cycles guarded).map fun c => c.members.toFinset).Nodup := by
  have hne : ∀ c ∈ env.cycles guarded, c.members ≠ [] := fun c hc =>
    (decomposition_sortedTrace env guarded).ne_nil _ (mem_cycles_iff.mp hc).1
  rw [List.Nodup, List.pairwise_map]
  apply (env.disjoint_cycles guarded).imp_of_mem
  intro c c' hc _ hdisjoint heq
  obtain ⟨n, hn⟩ := List.exists_mem_of_ne_nil _ (hne c hc)
  have hn' : n ∈ c.members.toFinset := List.mem_toFinset.mpr hn
  rw [heq, List.mem_toFinset] at hn'
  exact hdisjoint hn hn'

namespace Rearranged

theorem matches_ofDecl (h : Rearranged env env') (guarded : Bool) (decl : AliasDecl) :
    (Reading.ofDecl env guarded decl).Matches (Reading.ofDecl env' guarded decl) :=
  Reading.matches_ofDecl rfl fun _ _ name _ => h.resolve? name _

theorem dependencyGraph (h : Rearranged env env') (guarded : Bool) :
    env.dependencyGraph guarded = env'.dependencyGraph guarded := by
  unfold Environment.dependencyGraph
  congr 1
  funext n
  rw [Table.get?_of_perm h.aliases]
  cases env'.aliases.get? n with
  | none => rfl
  | some decl => exact (h.matches_ofDecl guarded decl).found

theorem danglingOf (h : Rearranged env env') (guarded : Bool) :
    env.danglingOf guarded = env'.danglingOf guarded := by
  funext n
  unfold Environment.danglingOf
  rw [Table.get?_of_perm h.aliases]
  cases env'.aliases.get? n with
  | none => rfl
  | some decl => exact (h.matches_ofDecl guarded decl).dangling

theorem circular (h : Rearranged env env') (guarded : Bool) :
    (env.circular guarded).Perm (env'.circular guarded) := by
  unfold Environment.circular
  rw [h.dependencyGraph]
  exact h.aliasNames.filter _

theorem dangling (h : Rearranged env env') (guarded : Bool) :
    (env.dangling guarded).Perm (env'.dangling guarded) := by
  unfold Environment.dangling
  rw [h.danglingOf]
  exact h.aliasNames.flatMap_right _

/-- A cycle of one environment is a cycle of the other, with its members in whatever order. -/
theorem exists_cycle (h : Rearranged env env') (he : env.WellKeyed) (he' : env'.WellKeyed)
    {c : AliasCycle} (hc : c ∈ env.cycles guarded) :
    ∃ c' ∈ env'.cycles guarded, c'.members.toFinset = c.members.toFinset := by
  have hcomponent := (mem_cycles_iff.mp hc).1
  obtain ⟨n, hn⟩ := List.exists_mem_of_ne_nil _
    ((decomposition_sortedTrace env guarded).ne_nil _ hcomponent)
  have hcircular := (h.circular guarded).mem_iff.mp ((mem_members_cycles_iff he).mp ⟨c, hc, hn⟩)
  obtain ⟨c', hc', hn'⟩ := (mem_members_cycles_iff he').mpr hcircular
  refine ⟨c', hc', ?_⟩
  ext m
  rw [List.mem_toFinset, List.mem_toFinset, mem_members_iff_mutual he hc hn,
    mem_members_iff_mutual he' hc' hn', h.dependencyGraph]

theorem cycles (h : Rearranged env env') (he : env.WellKeyed) (he' : env'.WellKeyed)
    (guarded : Bool) :
    ((env.cycles guarded).map fun c => c.members.toFinset).Perm
      ((env'.cycles guarded).map fun c => c.members.toFinset) := by
  rw [List.perm_ext_iff_of_nodup (nodup_cycles env guarded) (nodup_cycles env' guarded)]
  intro members
  rw [List.mem_map, List.mem_map]
  constructor
  · rintro ⟨c, hc, rfl⟩
    exact h.exists_cycle he he' hc
  · rintro ⟨c, hc, rfl⟩
    exact h.symm.exists_cycle he' he hc

end Rearranged

/-- Two environments hold the same, and the same is found in them whatever has been asked before. -/
structure Alike (env env' : Environment) : Prop where
  decls : ∀ key, env.aliases.get? key = env'.aliases.get? key
  summary : ∀ guarded history history', ∃ s s',
    ((Query.summary env).answer (Inquiry.askAll env history { guarded := guarded })).1 = .ok s ∧
    ((Query.summary env').answer (Inquiry.askAll env' history' { guarded := guarded })).1 = .ok s' ∧
    s.Alike s'
  order : ∀ guarded history history',
    (∃ names names',
      ((Query.order env).answer (Inquiry.askAll env history { guarded := guarded })).1 =
        .ok names ∧
      ((Query.order env').answer (Inquiry.askAll env' history' { guarded := guarded })).1 =
        .ok names') ∨
    ∃ e e',
      ((Query.order env).answer (Inquiry.askAll env history { guarded := guarded })).1 =
        .error (.cyclic e) ∧
      ((Query.order env').answer (Inquiry.askAll env' history' { guarded := guarded })).1 =
        .error (.cyclic e')

theorem Rearranged.alike (h : Rearranged env env') (he : env.WellKeyed) (he' : env'.WellKeyed) :
    env.Alike env' := by
  constructor
  case decls => exact fun key => congrFun (Table.get?_of_perm h.aliases) key
  case summary =>
    intro guarded history history'
    obtain ⟨_, _, hs, rfl, -⟩ := Query.returns_summary_eq he _ (known_askAll he guarded history)
    obtain ⟨_, _, hs', rfl, -⟩ := Query.returns_summary_eq he' _ (known_askAll he' guarded history')
    exact ⟨_, _, congrArg Prod.fst hs, congrArg Prod.fst hs', h.aliases.length_eq,
      h.circular guarded, h.cycles he he' guarded, h.dangling guarded⟩
  case order =>
    intro guarded history history'
    have horder := ((known_askAll he guarded history).1.agree he).order
    have horder' := ((known_askAll he' guarded history').1.agree he').order
    have hlength := (h.cycles he he' guarded).length_eq
    rw [List.length_map, List.length_map] at hlength
    -- One environment holds as many cycles as the other.
    cases hc : env.cycles guarded with
    | nil =>
      rw [hc, List.length_nil, eq_comm, List.length_eq_zero_iff] at hlength
      rw [hc] at horder
      rw [hlength] at horder'
      obtain ⟨names, hnames⟩ := horder
      obtain ⟨names', hnames'⟩ := horder'
      exact Or.inl ⟨names, names', hnames, hnames'⟩
    | cons c cs =>
      rw [hc, List.length_cons, eq_comm] at hlength
      obtain ⟨c', cs', hc'⟩ := List.exists_cons_of_length_eq_add_one hlength
      rw [hc] at horder
      rw [hc'] at horder'
      exact Or.inr ⟨_, _, horder, horder'⟩

end Environment

namespace Definitions.Document

variable {d d' : Document}

/-- Two documents that list the same in different orders can both be used or both not, and if they
can, the same is found in them. -/
theorem alike_of_perm (hm : d.modules.Perm d'.modules) (ha : d.aliases.Perm d'.aliases) :
    ((∃ e, d.toEnvironment = .error e) ∧ ∃ e, d'.toEnvironment = .error e) ∨
      ∃ env env', d.toEnvironment = .ok env ∧ d'.toEnvironment = .ok env' ∧ env.Alike env' := by
  have hm' := hm.map fun e => (e.name.name, e.target.name)
  have ha' := ha.map AliasEntry.toDecl
  cases h : d.toEnvironment with
  | ok env =>
    obtain ⟨env', h', hr⟩ := Environment.exists_build_perm h hm' ha'
    have he := (Environment.reachable_build h).wellKeyed
    have he' := (Environment.reachable_build h').wellKeyed
    exact Or.inr ⟨env, env', rfl, h', hr.alike he he'⟩
  | error e =>
    cases h' : d'.toEnvironment with
    | error e' => exact Or.inl ⟨⟨e, rfl⟩, e', rfl⟩
    | ok env' =>
      obtain ⟨env, hok, -⟩ := Environment.exists_build_perm h' hm'.symm ha'.symm
      rw [toEnvironment, hok] at h
      cases h

/-- Two module aliases in a chain, two aliases that refer to each other, and one that refers to
nothing that is declared. -/
def chained : Document where
  modules := [⟨⟨"A", ⟨"A", [], false⟩, rfl⟩, ⟨"B", ⟨"B", [], false⟩, rfl⟩⟩,
    ⟨⟨"B", ⟨"B", [], false⟩, rfl⟩, ⟨"C", ⟨"C", [], false⟩, rfl⟩⟩]
  aliases := [
    { name := ⟨⟨"A::x", ⟨"x", ["A"], false⟩, rfl⟩, rfl⟩
      type := .optional (.aliasInstance ⟨⟨"y", ⟨"y", [], false⟩, rfl⟩, rfl⟩ []) },
    { name := ⟨⟨"C::y", ⟨"y", ["C"], false⟩, rfl⟩, rfl⟩
      type := .union (.aliasInstance ⟨⟨"B::x", ⟨"x", ["B"], false⟩, rfl⟩, rfl⟩ [])
        [.aliasInstance ⟨⟨"z", ⟨"z", [], false⟩, rfl⟩, rfl⟩ []] }]

theorem alike_of_perm_chained :
    ∃ env env', chained.toEnvironment = .ok env ∧
      Document.toEnvironment ⟨chained.modules.reverse, chained.aliases.reverse⟩ = .ok env' ∧
      env.aliasNames = [⟨"x", ["C"], true⟩, ⟨"y", ["C"], true⟩] ∧
      env'.aliasNames = [⟨"y", ["C"], true⟩, ⟨"x", ["C"], true⟩] ∧ env.Alike env' := by
  have hm : chained.modules.Perm
      (Document.modules ⟨chained.modules.reverse, chained.aliases.reverse⟩) :=
    (List.reverse_perm _).symm
  rcases alike_of_perm hm (List.reverse_perm _).symm with ⟨⟨e, he⟩, -⟩ | ⟨env, env', h, h', halike⟩
  · cases he
  · refine ⟨env, env', h, h', ?_, ?_, halike⟩
    · cases h
      rfl
    · cases h'
      rfl

end Definitions.Document

end TypeAlias
