import TypeAlias.Diagnostics.Profile
import TypeAlias.Proofs.Diagnostics.Inquiries

/-!
# What a profile says

A name that is given to a query counts for the declared alias it stands for. What has been asked
before makes no difference to the profile of an alias, except to where its cycle starts.
-/

namespace TypeAlias

open Dependencies

/-- The written forms are in order. -/
theorem pairwise_sortByText (names : List TypeName) : (sortByText names).Pairwise
    fun a b => decide (a.toString ≤ b.toString) = true := by
  apply List.pairwise_mergeSort
  · intro a b c hab hbc
    rw [decide_eq_true_iff] at hab hbc ⊢
    exact String.le_trans hab hbc
  · intro a b
    rw [Bool.or_eq_true, decide_eq_true_iff, decide_eq_true_iff]
    exact String.le_total a.toString b.toString

theorem sortByText_perm {names names' : List TypeName} (h : names.Perm names') :
    (sortByText names).Perm (sortByText names') :=
  (List.mergeSort_perm _ _).trans (h.trans (List.mergeSort_perm _ _).symm)

/-- What is sorted by written form is written the same, in whatever order it comes. -/
theorem map_toString_sortByText {names names' : List TypeName} (h : names.Perm names') :
    (sortByText names).map TypeName.toString = (sortByText names').map TypeName.toString := by
  have hsorted (names : List TypeName) : ((sortByText names).map TypeName.toString).Pairwise
      fun a b => decide (a ≤ b) = true :=
    List.pairwise_map.mpr (pairwise_sortByText names)
  apply List.Perm.eq_of_pairwise ?_ (hsorted _) (hsorted _) ((sortByText_perm h).map _)
  intro a b _ _ hab hba
  exact String.le_antisymm (of_decide_eq_true hab) (of_decide_eq_true hba)

/-- Names that are written differently are sorted the same, in whatever order they come. -/
theorem sortByText_eq {names names' : List TypeName} (h : names.Perm names')
    (hwritten : ∀ n ∈ names, ∀ n' ∈ names, n.toString = n'.toString → n = n') :
    sortByText names = sortByText names' := by
  apply List.Perm.eq_of_pairwise ?_ (pairwise_sortByText _) (pairwise_sortByText _)
    (sortByText_perm h)
  intro a b ha hb hab hba
  apply hwritten a (List.mem_mergeSort.mp ha) b (h.mem_iff.mpr (List.mem_mergeSort.mp hb))
  exact String.le_antisymm (of_decide_eq_true hab) (of_decide_eq_true hba)

/-- Two profiles say the same; the cycle may start anywhere. -/
structure Profile.Alike (p p' : Profile) : Prop where
  direct : p.direct = p'.direct
  transitive : p.transitive.map TypeName.toString = p'.transitive.map TypeName.toString
  circular : p.circular = p'.circular
  cycle : p.cycle.Perm p'.cycle

/-- A profile tells what is within reach of an alias in a graph. -/
structure Profile.Tells (g : Digraph TypeName) (n : TypeName) (p : Profile) : Prop where
  direct : p.direct = sortByText (g.succ n)
  transitive : ∃ deps, p.transitive = sortByText deps ∧ deps.Nodup ∧ ∀ m, m ∈ deps ↔ g.LeadsTo n m
  circular : p.circular = true ↔ g.LeadsTo n n
  nodup : p.cycle.Nodup
  cycle : ∀ m, m ∈ p.cycle ↔ g.LeadsTo n n ∧ g.LeadsTo n m ∧ g.LeadsTo m n

/-- What is within reach decides what a profile says. -/
theorem Profile.Tells.alike {g : Digraph TypeName} {n : TypeName} {p p' : Profile}
    (h : p.Tells g n) (h' : p'.Tells g n) : p.Alike p' := by
  obtain ⟨deps, hp, hnodup, hdeps⟩ := h.transitive
  obtain ⟨deps', hp', hnodup', hdeps'⟩ := h'.transitive
  have hperm : deps.Perm deps' := (List.perm_ext_iff_of_nodup hnodup hnodup').mpr fun m =>
    (hdeps m).trans (hdeps' m).symm
  constructor
  case direct => rw [h.direct, h'.direct]
  case transitive =>
    rw [hp, hp']
    exact map_toString_sortByText hperm
  case circular => rw [Bool.eq_iff_iff, h.circular, h'.circular]
  case cycle =>
    exact (List.perm_ext_iff_of_nodup h.nodup h'.nodup).mpr fun m =>
      (h.cycle m).trans (h'.cycle m).symm

open Query in
theorem Stable.profile {env : Environment} {p : Dependencies → Prop} (h : Stable env p)
    (text : String) : Keeps p (Query.profile text env) := by
  refine keeps_bind (keeps_name text) fun n => ?_
  refine keeps_bind (h.directDependencies n) fun _ => ?_
  refine keeps_bind (h.dependencies n) fun _ => ?_
  refine keeps_bind (h.isCircular n) fun _ => ?_
  exact keeps_bind (h.cycle n) fun _ => keeps_pure _

namespace Query

variable {env : Environment} {guarded : Bool} {n key : TypeName} {text : String}
  {e : LookupError} {d d' : Dependencies}

theorem canonical_of_ok (h : env.normalize n = .ok key) : canonical env n = pure key := by
  rw [canonical, h]
  rfl

theorem canonical_of_error (h : env.normalize n = .error e) :
    canonical env n = throw (.lookup e) := by
  rw [canonical, h]
  rfl

/-- A profile, once the name has been read. -/
def profileOf (env : Environment) (n : TypeName) : Query Profile := do
  let direct ← directDependencies env n
  let transitive ← dependencies env n
  let circular ← isCircular env n
  let cycle ← cycle env n
  return { direct := sortByText direct, transitive := sortByText transitive, circular, cycle }

theorem profile_eq (ht : TypeName.parse? text = some n) : profile text env = profileOf env n := by
  have hname : name text = pure n := by rw [name, ht]
  rw [profile, hname, pure_bind, profileOf]

/-- The profile of an alias under whatever name is the one under its canonical name. -/
theorem profileOf_of_ok (he : env.WellKeyed) (h : env.normalize n = .ok key) :
    profileOf env n = profileOf env key := by
  have hkey := he.normalize (Environment.mem_aliasNames_of_normalize h) []
  unfold profileOf directDependencies dependencies transitiveDependencies isCircular cycle
  rw [canonical_of_ok h, canonical_of_ok hkey]

theorem profileOf_of_error (h : env.normalize n = .error e) :
    profileOf env n = throw (.lookup e) := by
  unfold profileOf directDependencies
  rw [canonical_of_error h]
  rfl

theorem returns_profileOf (he : env.WellKeyed) (h : env.normalize n = .ok key) :
    Returns (Known env guarded) (profileOf env n)
      (Profile.Tells (env.dependencyGraph guarded) key) := by
  have hk := Known.stable he guarded
  have tells {d : Dependencies} (hd : Known env guarded d) :
      TellsReach env (env.dependencyGraph guarded) d key :=
    hd.1.tellsReach he (Environment.mem_aliasNames_of_normalize h)
  rw [profileOf_of_ok he h]
  apply ((hk.directDependencies key).returns fun d hd =>
    ⟨_, (tells hd).directDependencies, rfl⟩).bind
  rintro _ rfl
  apply ((hk.dependencies key).returns fun d hd => (tells hd).dependencies).bind
  intro deps hdeps
  apply ((hk.isCircular key).returns fun d hd => (tells hd).isCircular).bind
  intro circular hcircular
  apply ((hk.cycle key).returns fun d hd => (tells hd).cycle).bind
  rintro cycle ⟨hnodup, hcycle, hnone⟩
  apply returns_pure
  refine ⟨rfl, ⟨deps, rfl, hdeps⟩, hcircular, hnodup, fun m => ?_⟩
  by_cases hself : (env.dependencyGraph guarded).LeadsTo key key
  · rw [hcycle hself, and_iff_right hself]
  · simp [hnone hself, hself]

/-- Whatever has been asked before, a profile is refused in the same way or says the same. -/
theorem profile_known (he : env.WellKeyed) (hd : Known env guarded d) (hd' : Known env guarded d')
    (text : String) :
    (∃ e, ((profile text env).answer d).1 = .error e ∧
        ((profile text env).answer d').1 = .error e) ∨
      ∃ p p', ((profile text env).answer d).1 = .ok p ∧ ((profile text env).answer d').1 = .ok p' ∧
        p.Alike p' := by
  cases ht : TypeName.parse? text with
  | none =>
    have hq : profile text env = throw (.malformed text) := by
      rw [profile, name, ht]
      rfl
    rw [hq]
    exact Or.inl ⟨_, rfl, rfl⟩
  | some n =>
    rw [profile_eq ht]
    cases hn : env.normalize n with
    | error e =>
      rw [profileOf_of_error hn]
      exact Or.inl ⟨_, rfl, rfl⟩
    | ok key =>
      obtain ⟨p, _, hp, htells, -⟩ := returns_profileOf he hn d hd
      obtain ⟨p', _, hp', htells', -⟩ := returns_profileOf he hn d' hd'
      exact Or.inr ⟨p, p', congrArg Prod.fst hp, congrArg Prod.fst hp', htells.alike htells'⟩

end Query

end TypeAlias
