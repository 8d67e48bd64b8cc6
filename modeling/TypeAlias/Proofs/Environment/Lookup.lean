import TypeAlias.Proofs.Environment.Loops

/-!
# Looking names up in two ways

A written name is looked up from the inside to the outside of its context. Where a candidate runs in
a circle, one way of looking up gives up, and the other one passes over the candidate. So what the
first one finds the second one finds too. What only the second one finds stands further out than a
candidate that runs in a circle.
-/

namespace TypeAlias.Environment

variable {env : Environment} {name key candidate : TypeName} {context : Path}
  {before after : List TypeName}

theorem declared?_eq_some_iff :
    env.declared? candidate = some key ↔
      env.rewrite? candidate = some key ∧ env.aliases.contains key = true :=
  Option.filter_eq_some_iff

/-- A candidate that is declared ends the search. -/
theorem normalizeFirst_of_declared? (name : TypeName) (after : List TypeName)
    (h : env.declared? candidate = some key) :
    env.normalizeFirst name (candidate :: after) = .ok key := by
  obtain ⟨hr, hc⟩ := declared?_eq_some_iff.mp h
  rw [normalizeFirst, hr]
  exact if_pos hc

/-- Candidates that are not declared are passed, unless one of them runs in a circle. -/
theorem normalizeFirst_append (name : TypeName) (after : List TypeName)
    (h : ∀ c ∈ before, env.declared? c = none) :
    env.normalizeFirst name (before ++ after) = env.normalizeFirst name after ∨
      ∃ c ∈ before, env.rewrite? c = none ∧
        env.normalizeFirst name (before ++ after) = .error (.moduleLoop c) := by
  induction before with
  | nil => exact Or.inl rfl
  | cons c before ih =>
    rw [List.cons_append, normalizeFirst]
    cases hr : env.rewrite? c with
    | none => exact Or.inr ⟨c, List.mem_cons_self, hr, rfl⟩
    | some key =>
      have hundeclared : ¬ env.aliases.contains key = true := by
        intro hc
        have hnone := h c List.mem_cons_self
        rw [declared?_eq_some_iff.mpr ⟨hr, hc⟩] at hnone
        cases hnone
      dsimp only
      rw [if_neg hundeclared]
      refine (ih fun c' hc' => h c' (List.mem_cons_of_mem _ hc')).imp_right ?_
      rintro ⟨c', hc', hloop, herror⟩
      exact ⟨c', List.mem_cons_of_mem _ hc', hloop, herror⟩

/-- When no candidate is declared, the name stands for nothing, or one of them runs in a circle. -/
theorem normalize_of_resolve?_none (h : env.resolve? name context = none) :
    env.normalize name context = .error (.undefined name) ∨
      ∃ c ∈ candidates name context, env.rewrite? c = none ∧
        env.normalize name context = .error (.moduleLoop c) := by
  have hpassed := normalizeFirst_append name [] (List.findSome?_eq_none_iff.mp h)
  rwa [List.append_nil] at hpassed

/-- A candidate that is declared is the first one to be, and it is found, unless one in front of it
runs in a circle. -/
theorem normalize_of_resolve?_some (h : env.resolve? name context = some key) :
    ∃ before candidate after, candidates name context = before ++ candidate :: after ∧
      env.declared? candidate = some key ∧ (∀ c ∈ before, env.declared? c = none) ∧
      (env.normalize name context = .ok key ∨ ∃ c ∈ before, env.rewrite? c = none ∧
        env.normalize name context = .error (.moduleLoop c)) := by
  obtain ⟨before, candidate, after, hsplit, hdeclared, hbefore⟩ :=
    List.findSome?_eq_some_iff.mp h
  refine ⟨before, candidate, after, hsplit, hdeclared, hbefore, ?_⟩
  rw [normalize, hsplit, ← normalizeFirst_of_declared? name after hdeclared]
  exact normalizeFirst_append name _ hbefore

theorem resolve?_of_normalize (h : env.normalize name context = .ok key) :
    env.resolve? name context = some key := by
  cases hr : env.resolve? name context with
  | none =>
    rcases normalize_of_resolve?_none hr with hundefined | ⟨c, -, -, hloop⟩
    · rw [hundefined] at h
      cases h
    · rw [hloop] at h
      cases h
  | some found =>
    obtain ⟨-, -, -, -, -, -, hok | ⟨c, -, -, hloop⟩⟩ := normalize_of_resolve?_some hr
    · rw [hok] at h
      cases h
      rfl
    · rw [hloop] at h
      cases h

/-- The candidate for a relative name in the namespace of the first `n` segments of a context. -/
def candidateAt (name : TypeName) (context : Path) (n : Nat) : TypeName :=
  name.inScope (context.take n ++ name.scope)

/-- In front of the candidate in a namespace stand just those in the namespaces inside of it. -/
theorem exists_candidateAt (hr : name.absolute = false)
    (h : candidates name context = before ++ candidate :: after) :
    ∃ outer ≤ context.length, candidate = candidateAt name context outer ∧
      ∀ c, c ∈ before ↔
        ∃ inner, outer < inner ∧ inner ≤ context.length ∧ c = candidateAt name context inner := by
  have habs : ¬ name.absolute = true := by simp [hr]
  rw [candidates, if_neg habs] at h
  obtain ⟨deeper, rest, hsplit, rfl, hrest⟩ := List.map_eq_append_iff.mp h
  obtain ⟨outer, further, rfl, rfl, rfl⟩ := List.map_eq_cons_iff.mp hrest
  -- The namespaces come from the inside to the outside.
  have hsorted : (deeper ++ outer :: further).Pairwise (· > ·) := by
    rw [← hsplit, List.pairwise_reverse]
    exact List.pairwise_lt_range
  have hmem (n : Nat) : n ∈ deeper ++ outer :: further ↔ n ≤ context.length := by
    rw [← hsplit, List.mem_reverse, List.mem_range, Nat.lt_succ_iff]
  obtain ⟨-, hrest, hdeeper⟩ := List.pairwise_append.mp hsorted
  refine ⟨outer, (hmem outer).mp (by simp), rfl, fun c => ?_⟩
  rw [List.mem_map]
  constructor
  · rintro ⟨inner, hinner, rfl⟩
    exact ⟨inner, hdeeper inner hinner outer List.mem_cons_self,
      (hmem inner).mp (List.mem_append_left _ hinner), rfl⟩
  · rintro ⟨inner, hlt, hle, rfl⟩
    refine ⟨inner, ?_, rfl⟩
    rcases List.mem_append.mp ((hmem inner).mpr hle) with hinner | hinner
    · exact hinner
    · rcases List.mem_cons.mp hinner with rfl | hinner
      · omega
      · have hgt := (List.pairwise_cons.mp hrest).1 inner hinner
        omega

/-- A relative name is found in a namespace of a context, as the innermost candidate that is
declared, and further inside there is one that runs in a circle. -/
def BehindLoop (env : Environment) (name : TypeName) (context : Path) (key : TypeName) : Prop :=
  ∃ outer inner, outer < inner ∧ inner ≤ context.length ∧
    env.declared? (candidateAt name context outer) = some key ∧
    (∀ n, outer < n → n ≤ context.length → env.declared? (candidateAt name context n) = none) ∧
    env.rewrite? (candidateAt name context inner) = none ∧
    env.normalize name context = .error (.moduleLoop (candidateAt name context inner))

theorem normalize_or_behindLoop (h : env.resolve? name context = some key) :
    env.normalize name context = .ok key ∨ env.BehindLoop name context key := by
  obtain ⟨before, candidate, after, hsplit, hdeclared, hbefore, hok | ⟨c, hc, hloop, herror⟩⟩ :=
    normalize_of_resolve?_some h
  · exact Or.inl hok
  · cases habs : name.absolute with
    | true =>
      rw [candidates, if_pos habs] at hsplit
      cases before with
      | nil => exact absurd hc List.not_mem_nil
      | cons b before => simp at hsplit
    | false =>
      obtain ⟨outer, -, rfl, hinside⟩ := exists_candidateAt habs hsplit
      obtain ⟨inner, hlt, hle, rfl⟩ := (hinside c).mp hc
      refine Or.inr ⟨outer, inner, hlt, hle, hdeclared, fun n hn hn' => ?_, hloop, herror⟩
      exact hbefore _ ((hinside _).mpr ⟨n, hn, hn', rfl⟩)

/-- How the two ways of looking up a name in a context agree. -/
structure LookupsAgree (env : Environment) (name : TypeName) (context : Path) : Prop where
  resolved : ∀ key, env.normalize name context = .ok key → env.resolve? name context = some key
  /-- What is found is the name of a declared alias, which stands for itself. The other way finds it
  too, or gives up further inside. -/
  found : ∀ key, env.resolve? name context = some key →
    key ∈ env.aliasNames ∧ (∀ context', env.normalize key context' = .ok key) ∧
    (env.normalize name context = .ok key ∨ env.BehindLoop name context key)
  failed : env.resolve? name context = none →
    env.normalize name context = .error (.undefined name) ∨
    ∃ c ∈ candidates name context, env.normalize name context = .error (.moduleLoop c)
  absolute : name.absolute = true →
    ∀ key, env.resolve? name context = some key ↔ env.normalize name context = .ok key

theorem Reachable.lookupsAgree (h : env.Reachable) (name : TypeName) (context : Path) :
    env.LookupsAgree name context := by
  constructor
  case resolved => exact fun key => resolve?_of_normalize
  case found =>
    intro key hkey
    have hmem := mem_aliasNames_of_resolve? hkey
    exact ⟨hmem, h.wellKeyed.normalize hmem, normalize_or_behindLoop hkey⟩
  case failed =>
    intro hnone
    refine (normalize_of_resolve?_none hnone).imp_right ?_
    rintro ⟨c, hc, -, herror⟩
    exact ⟨c, hc, herror⟩
  case absolute =>
    intro habs key
    rw [resolve?_of_absolute habs, normalize_of_absolute habs, declared?]
    cases env.rewrite? name with
    | none => simp
    | some found =>
      rw [Option.filter_some]
      by_cases hc : env.aliases.contains found = true <;> simp [hc]

/-- A module that stands for itself, and one of the same name at the top level with a second path. -/
def encircled : List Registration :=
  [.identify ⟨"L", ["K"], true⟩ ⟨"L", ["K"], true⟩, .declare ⟨⟨"x", ["L"], true⟩, .base "nil", []⟩,
    .identify ⟨"M", [], true⟩ ⟨"L", [], true⟩]

theorem lookupsAgree_encircled :
    (registerAll {} encircled).Reachable ∧
      (registerAll {} encircled).LookupsAgree ⟨"x", ["L"], false⟩ ["K", "N"] ∧
      (registerAll {} encircled).resolve? ⟨"x", ["L"], false⟩ ["K", "N"] =
        some ⟨"x", ["L"], true⟩ ∧
      (registerAll {} encircled).normalize ⟨"x", ["L"], false⟩ ["K", "N"] =
        .error (.moduleLoop ⟨"x", ["K", "L"], true⟩) ∧
      (registerAll {} encircled).BehindLoop ⟨"x", ["L"], false⟩ ["K", "N"] ⟨"x", ["L"], true⟩ ∧
      (registerAll {} encircled).resolve? ⟨"x", ["M"], true⟩ ["K"] = some ⟨"x", ["L"], true⟩ ∧
      (registerAll {} encircled).normalize ⟨"x", ["M"], true⟩ ["K"] = .ok ⟨"x", ["L"], true⟩ := by
  have hreachable := Reachable.empty.registerAll encircled
  have hagree := hreachable.lookupsAgree ⟨"x", ["L"], false⟩ ["K", "N"]
  have hloop : (registerAll {} encircled).normalize ⟨"x", ["L"], false⟩ ["K", "N"] =
      .error (.moduleLoop ⟨"x", ["K", "L"], true⟩) := rfl
  refine ⟨hreachable, hagree, rfl, hloop, ?_, rfl, ?_⟩
  · apply (hagree.found _ rfl).2.2.resolve_left
    rw [hloop]
    rintro ⟨⟩
  · exact ((hreachable.lookupsAgree ⟨"x", ["M"], true⟩ ["K"]).absolute rfl _).mp rfl

end TypeAlias.Environment
