import Mathlib.Data.List.Perm.Subperm
import TypeAlias.Proofs.Environment.Rewriting

/-!
# Where rewriting ends

Replacing the longest registered beginning of a namespace again and again makes a way. It may never
come to an end, and the namespaces on it may grow without bound. Rewriting follows the way and gives
up where a path would be replaced a second time. So it stops on every way, after no more
replacements than there are registered paths; and it gives up just when a path comes up again, which
happens on every way without an end, but also on some that have one.
-/

namespace TypeAlias

namespace ModuleAliases

variable {m : ModuleAliases} {namesp result next source : Path}
  {seen replaced replaced' : List Path} {steps : Nat}

/-- One replacement after the other, each of the longest registered beginning that is not empty; the
paths that are replaced are listed from the first to the last. -/
inductive Way (m : ModuleAliases) : Path → List Path → Path → Prop
  | stay {namesp : Path} : Way m namesp [] namesp
  | replace {source target rest result : Path} {replaced : List Path} :
      source ≠ [] → m.get? source = some target →
      (∀ path ∈ m.keys, path <+: source ++ rest → path.length ≤ source.length) →
      Way m (target ++ rest) replaced result →
      Way m (source ++ rest) (source :: replaced) result

/-- No beginning of a namespace is registered, but for the empty one. -/
def Normal (m : ModuleAliases) (namesp : Path) : Prop :=
  ∀ path, path <+: namesp → path ≠ [] → m.contains path = false

/-- Replacing one beginning after the other comes to an end. -/
def EndsAt (m : ModuleAliases) (namesp result : Path) : Prop :=
  (∃ replaced, m.Way namesp replaced result) ∧ m.Normal result

/-- However many beginnings have been replaced, there is another one. -/
def Endless (m : ModuleAliases) (namesp : Path) : Prop :=
  ∀ n, ∃ replaced next, m.Way namesp replaced next ∧ replaced.length = n

/-- Some path is replaced a second time. -/
def Repeats (m : ModuleAliases) (namesp : Path) : Prop :=
  ∃ replaced source next, m.Way namesp (replaced ++ [source]) next ∧ source ∈ replaced

/-- Rewriting a namespace, when some beginnings must not be replaced any more, stops after a number
of replacements, with a result, or without one where such a beginning comes up. -/
inductive Stops (m : ModuleAliases) : List Path → Path → Nat → Option Path → Prop
  | done {seen : List Path} {namesp : Path} :
      m.longest? namesp = none → Stops m seen namesp 0 (some namesp)
  | again {seen : List Path} {namesp : Path} {p : PathMatch} :
      m.longest? namesp = some p → p.source ∈ seen → Stops m seen namesp 0 none
  | replace {seen : List Path} {namesp : Path} {p : PathMatch} {steps : Nat}
      {outcome : Option Path} :
      m.longest? namesp = some p → p.source ∉ seen →
      Stops m (p.source :: seen) (p.target ++ p.rest) steps outcome →
      Stops m seen namesp (steps + 1) outcome

theorem normal_iff : m.Normal namesp ↔ m.longest? namesp = none :=
  longest?_eq_none_iff.symm

/-! ## The way -/

theorem way_cons_iff : m.Way namesp (source :: replaced) result ↔
    ∃ p, m.longest? namesp = some p ∧ p.source = source ∧
      m.Way (p.target ++ p.rest) replaced result := by
  constructor
  · intro h
    cases h with
    | @replace _ target rest _ _ hne htarget hlongest hway =>
      refine ⟨⟨source, target, rest⟩, ?_, rfl, hway⟩
      exact longest?_eq_some_iff.mpr ⟨hne, htarget, rfl, hlongest⟩
  · rintro ⟨p, hp, rfl, hway⟩
    obtain ⟨hne, htarget, rfl, hlongest⟩ := longest?_eq_some_iff.mp hp
    exact .replace hne htarget hlongest hway

/-- There is one way, so what is replaced on a part of it is replaced on all of it. -/
theorem Way.isPrefix_of_end (h : m.Way namesp replaced result) (hend : m.longest? result = none)
    (h' : m.Way namesp replaced' next) : replaced' <+: replaced := by
  induction replaced' generalizing namesp replaced with
  | nil => exact List.nil_prefix
  | cons source replaced' ih =>
    obtain ⟨p, hp, rfl, hway'⟩ := way_cons_iff.mp h'
    cases replaced with
    | nil =>
      cases h
      rw [hend] at hp
      cases hp
    | cons source replaced =>
      obtain ⟨q, hq, rfl, hway⟩ := way_cons_iff.mp h
      obtain rfl : p = q := Option.some.inj (hp.symm.trans hq)
      exact List.cons_prefix_cons.mpr ⟨rfl, ih hway hway'⟩

theorem Way.result_eq (h : m.Way namesp replaced result) (h' : m.Way namesp replaced next) :
    result = next := by
  induction replaced generalizing namesp with
  | nil =>
    cases h
    cases h'
    rfl
  | cons source replaced ih =>
    obtain ⟨p, hp, -, hway⟩ := way_cons_iff.mp h
    obtain ⟨q, hq, -, hway'⟩ := way_cons_iff.mp h'
    obtain rfl : p = q := Option.some.inj (hp.symm.trans hq)
    exact ih hway hway'

/-- What stands in a namespace on the way was there before, or is in the path that a module alias
stands for. -/
theorem Way.mem_result {s : String} (h : m.Way namesp replaced result) (hs : s ∈ result) :
    s ∈ namesp ∨ ∃ target ∈ m.values, s ∈ target := by
  induction h with
  | stay => exact Or.inl hs
  | @replace source target rest result replaced _ htarget _ _ ih =>
    rcases ih hs with hs | hs
    · rcases List.mem_append.mp hs with hs | hs
      · exact Or.inr ⟨target, Table.mem_values_of_get? htarget, hs⟩
      · exact Or.inl (List.mem_append_right _ hs)
    · exact Or.inr hs

/-- There is one end. -/
theorem EndsAt.result_eq (h : m.EndsAt namesp result) (h' : m.EndsAt namesp next) :
    result = next := by
  obtain ⟨⟨replaced, hway⟩, hend⟩ := h
  obtain ⟨⟨replaced', hway'⟩, hend'⟩ := h'
  have hpart := hway.isPrefix_of_end (normal_iff.mp hend) hway'
  have hpart' := hway'.isPrefix_of_end (normal_iff.mp hend') hway
  obtain rfl := hpart.eq_of_length_le hpart'.length_le
  exact hway.result_eq hway'

/-- A way goes on unless it has come to an end. -/
theorem exists_way_or_endsAt (m : ModuleAliases) (namesp : Path) (n : Nat) :
    (∃ replaced next, m.Way namesp replaced next ∧ replaced.length = n) ∨
      ∃ result, m.EndsAt namesp result := by
  induction n generalizing namesp with
  | zero => exact Or.inl ⟨[], namesp, .stay, rfl⟩
  | succ n ih =>
    cases hp : m.longest? namesp with
    | none => exact Or.inr ⟨namesp, ⟨[], .stay⟩, normal_iff.mpr hp⟩
    | some p =>
      rcases ih (p.target ++ p.rest) with ⟨replaced, next, hway, hlength⟩ |
        ⟨result, ⟨replaced, hway⟩, hnormal⟩
      · exact Or.inl ⟨_, next, way_cons_iff.mpr ⟨p, hp, rfl, hway⟩, congrArg (· + 1) hlength⟩
      · exact Or.inr ⟨result, ⟨_, way_cons_iff.mpr ⟨p, hp, rfl, hway⟩⟩, hnormal⟩

theorem endless_or_endsAt (m : ModuleAliases) (namesp : Path) :
    m.Endless namesp ∨ ∃ result, m.EndsAt namesp result := by
  rw [or_iff_not_imp_right]
  exact fun hno n => (m.exists_way_or_endsAt namesp n).resolve_right hno

/-- A way with an end is not endless. -/
theorem EndsAt.not_endless (h : m.EndsAt namesp result) : ¬ m.Endless namesp := by
  intro hendless
  obtain ⟨⟨replaced, hway⟩, hend⟩ := h
  obtain ⟨replaced', next, hway', hlength⟩ := hendless (replaced.length + 1)
  have hle := (hway.isPrefix_of_end (normal_iff.mp hend) hway').length_le
  omega

/-! ## Following it -/

/-- Registered paths that differ from each other are no more than are registered. -/
theorem length_le_size (hnodup : seen.Nodup) (hseen : seen ⊆ m.keys) : seen.length ≤ m.size := by
  have hsize : m.keys.length = m.size := List.length_map _
  rw [← hsize]
  exact (List.subperm_of_subset hnodup hseen).length_le

/-- Rewriting stops before it has replaced more paths than are registered. -/
theorem exists_stops {fuel : Nat} (hnodup : seen.Nodup) (hseen : seen ⊆ m.keys)
    (hfuel : m.size < fuel + seen.length) :
    ∃ steps, steps + seen.length ≤ m.size ∧
      m.Stops seen namesp steps (m.rewriteFrom? fuel seen namesp) := by
  have hle := length_le_size hnodup hseen
  induction fuel generalizing seen namesp with
  | zero => omega
  | succ fuel ih =>
    rw [rewriteFrom?]
    cases hp : m.longest? namesp with
    | none => exact ⟨0, by omega, .done hp⟩
    | some p =>
      dsimp only
      split
      · next hmem => exact ⟨0, by omega, .again hp hmem⟩
      · next hnew =>
        have hkey : p.source ∈ m.keys :=
          Table.mem_keys_iff_get?.mpr ⟨_, (longest?_eq_some_iff.mp hp).2.1⟩
        have hnodup' : (p.source :: seen).Nodup := List.nodup_cons.mpr ⟨hnew, hnodup⟩
        have hseen' : p.source :: seen ⊆ m.keys := List.cons_subset.mpr ⟨hkey, hseen⟩
        have hlength : (p.source :: seen).length = seen.length + 1 := List.length_cons
        obtain ⟨steps, hsteps, hstops⟩ := @ih (p.target ++ p.rest) (p.source :: seen) hnodup'
          hseen' (by omega) (length_le_size hnodup' hseen')
        exact ⟨steps + 1, by omega, .replace hp hnew hstops⟩

theorem stops_rewrite? (m : ModuleAliases) (namesp : Path) :
    ∃ steps ≤ m.size, m.Stops [] namesp steps (m.rewrite? namesp) :=
  exists_stops List.nodup_nil (List.nil_subset _) (Nat.lt_succ_self _)

/-- Where rewriting stops with a result, the way ends, and nothing has been replaced twice. -/
theorem Stops.way_of_some (h : m.Stops seen namesp steps (some result)) (hseen : seen.Nodup) :
    ∃ replaced, m.Way namesp replaced result ∧ m.longest? result = none ∧
      (replaced.reverse ++ seen).Nodup := by
  generalize ho : some result = outcome at h
  induction h with
  | done hend =>
    cases ho
    exact ⟨[], .stay, hend, hseen⟩
  | again => cases ho
  | replace hp hnew _ ih =>
    obtain ⟨replaced, hway, hend, hnodup⟩ := ih (List.nodup_cons.mpr ⟨hnew, hseen⟩) ho
    refine ⟨_, way_cons_iff.mpr ⟨_, hp, rfl, hway⟩, hend, ?_⟩
    rwa [List.reverse_cons, List.append_assoc]

/-- Where rewriting stops without a result, a path comes up again. -/
theorem Stops.repeats_of_none (h : m.Stops seen namesp steps none) :
    ∃ replaced source next, m.Way namesp (replaced ++ [source]) next ∧
      source ∈ replaced.reverse ++ seen := by
  generalize ho : none = outcome at h
  induction h with
  | done => cases ho
  | again hp hmem => exact ⟨[], _, _, way_cons_iff.mpr ⟨_, hp, rfl, .stay⟩, hmem⟩
  | replace hp _ _ ih =>
    obtain ⟨replaced, source, next, hway, hmem⟩ := ih ho
    refine ⟨_ :: replaced, source, next, way_cons_iff.mpr ⟨_, hp, rfl, hway⟩, ?_⟩
    rwa [List.reverse_cons, List.append_assoc]

/-- Where the way ends without replacing a path twice, no path comes up again. -/
theorem Way.not_repeats (h : m.Way namesp replaced result) (hend : m.longest? result = none)
    (hnodup : replaced.Nodup) : ¬ m.Repeats namesp := by
  rintro ⟨before, source, next, hway, hmem⟩
  have hagain := hnodup.sublist (h.isPrefix_of_end hend hway).sublist
  exact (List.nodup_append.mp hagain).2.2 source hmem source List.mem_cons_self rfl

theorem way_of_rewrite? (h : m.rewrite? namesp = some result) :
    ∃ replaced, m.Way namesp replaced result ∧ m.longest? result = none ∧ replaced.Nodup := by
  obtain ⟨steps, -, hstops⟩ := stops_rewrite? m namesp
  rw [h] at hstops
  obtain ⟨replaced, hway, hend, hnodup⟩ := hstops.way_of_some List.nodup_nil
  rw [List.append_nil, List.nodup_reverse] at hnodup
  exact ⟨replaced, hway, hend, hnodup⟩

/-- Rewriting has no result just where a path comes up again. -/
theorem rewrite?_eq_none_iff : m.rewrite? namesp = none ↔ m.Repeats namesp := by
  constructor
  · intro h
    obtain ⟨steps, -, hstops⟩ := stops_rewrite? m namesp
    rw [h] at hstops
    obtain ⟨replaced, source, next, hway, hmem⟩ := hstops.repeats_of_none
    rw [List.append_nil, List.mem_reverse] at hmem
    exact ⟨replaced, source, next, hway, hmem⟩
  · intro hrepeats
    by_contra hne
    obtain ⟨result, h⟩ := Option.ne_none_iff_exists'.mp hne
    obtain ⟨replaced, hway, hend, hnodup⟩ := way_of_rewrite? h
    exact hway.not_repeats hend hnodup hrepeats

/-- Rewriting comes to the end of the way unless a path comes up again. -/
theorem rewrite?_eq_some_iff :
    m.rewrite? namesp = some result ↔ m.EndsAt namesp result ∧ ¬ m.Repeats namesp := by
  have hsome {result : Path} (h : m.rewrite? namesp = some result) : m.EndsAt namesp result := by
    obtain ⟨replaced, hway, hend, -⟩ := way_of_rewrite? h
    exact ⟨⟨replaced, hway⟩, normal_iff.mpr hend⟩
  constructor
  · intro h
    refine ⟨hsome h, fun hrepeats => ?_⟩
    rw [rewrite?_eq_none_iff.mpr hrepeats] at h
    cases h
  · rintro ⟨hends, hrepeats⟩
    rw [← rewrite?_eq_none_iff] at hrepeats
    obtain ⟨result', h⟩ := Option.ne_none_iff_exists'.mp hrepeats
    rw [h, hends.result_eq (hsome h)]

/-- A path comes up again on a way without an end. -/
theorem Endless.repeats (h : m.Endless namesp) : m.Repeats namesp := by
  rw [← rewrite?_eq_none_iff]
  by_contra hne
  obtain ⟨result, hr⟩ := Option.ne_none_iff_exists'.mp hne
  exact (rewrite?_eq_some_iff.mp hr).1.not_endless h

end ModuleAliases

namespace Environment

open ModuleAliases

variable {env : Environment} {name key : TypeName}

theorem rewrite?_eq_none_iff : env.rewrite? name = none ↔ env.modules.Repeats name.scope := by
  rw [rewrite?, Option.map_eq_none_iff, ModuleAliases.rewrite?_eq_none_iff]

theorem rewrite?_of_endsAt {result : Path} (h : env.modules.EndsAt name.scope result)
    (hrepeats : ¬ env.modules.Repeats name.scope) :
    env.rewrite? name = some (name.inScope result) := by
  rw [rewrite?, rewrite?_eq_some_iff.mpr ⟨h, hrepeats⟩]
  rfl

theorem mem_scope_of_rewrite? {s : String} (h : env.rewrite? name = some key)
    (hs : s ∈ key.scope) : s ∈ name.scope ∨ ∃ target ∈ env.modules.values, s ∈ target := by
  obtain ⟨result, hr, rfl⟩ := Option.map_eq_some_iff.mp h
  obtain ⟨replaced, hway, -⟩ := way_of_rewrite? hr
  exact hway.mem_result hs

/-- An absolute name is looked up as it is. -/
theorem normalize_of_absolute (habs : name.absolute = true) (context : Path) :
    env.normalize name context =
      match env.rewrite? name with
      | none => .error (.moduleLoop name)
      | some key => if env.aliases.contains key then .ok key else .error (.undefined name) := by
  rw [normalize, candidates, if_pos habs, normalizeFirst]
  cases env.rewrite? name <;> rfl

/-- Whatever the table of module aliases, rewriting a name stops after no more replacements than
there are registered paths. What it comes to is an absolute name with the same last segment, at the
end of the way, and is rewritten to itself; from a namespace without such an end it comes to
nothing. -/
theorem rewrite?_stops (env : Environment) (name : TypeName) :
    (∃ steps ≤ env.modules.size,
      env.modules.Stops [] name.scope steps ((env.rewrite? name).map TypeName.scope)) ∧
    (∀ key, env.rewrite? name = some key → key.absolute = true ∧ key.name = name.name ∧
      env.modules.EndsAt name.scope key.scope ∧ env.rewrite? key = some key) ∧
    (env.modules.Endless name.scope → env.rewrite? name = none) := by
  refine ⟨?_, ?_, ?_⟩
  · have hscope : (env.rewrite? name).map TypeName.scope = env.modules.rewrite? name.scope := by
      rw [rewrite?, Option.map_map]
      exact congrFun Option.map_id _
    rw [hscope]
    exact stops_rewrite? env.modules name.scope
  · intro key h
    have hcanonical := canonical_of_rewrite? h
    obtain ⟨result, hr, rfl⟩ := Option.map_eq_some_iff.mp h
    exact ⟨rfl, rfl, (rewrite?_eq_some_iff.mp hr).1, hcanonical.rewrite?⟩
  · exact fun hendless => rewrite?_eq_none_iff.mpr hendless.repeats

/-- A module that contains what it stands for, and one with a path for a part of it. -/
def growing : List Registration :=
  [.identify ⟨"A", [], true⟩ ⟨"B", ["A"], true⟩, .identify ⟨"C", [], true⟩ ⟨"D", [], true⟩,
    .identify ⟨"E", ["C"], true⟩ ⟨"C", ["F"], true⟩, .identify ⟨"F", [], true⟩ ⟨"C", [], true⟩]

theorem rewrite?_stops_growing :
    (∃ steps ≤ 4, (registerAll {} growing).modules.Stops [] ["C", "E", "G"] steps
      (some ["D", "C", "G"])) ∧
    (registerAll {} growing).modules.EndsAt ["C", "E", "G"] ["D", "C", "G"] ∧
    (registerAll {} growing).rewrite? ⟨"x", ["D", "C", "G"], true⟩ =
      some ⟨"x", ["D", "C", "G"], true⟩ ∧
    (registerAll {} growing).rewrite? ⟨"x", ["A"], false⟩ = none := by
  obtain ⟨hstops, hresult, -⟩ :=
    rewrite?_stops (registerAll {} growing) ⟨"x", ["C", "E", "G"], false⟩
  obtain ⟨-, -, hends, hagain⟩ := hresult ⟨"x", ["D", "C", "G"], true⟩ rfl
  refine ⟨hstops, hends, hagain, ?_⟩
  apply (rewrite?_stops (registerAll {} growing) ⟨"x", ["A"], false⟩).2.2
  -- Each replacement leaves the path in front of one more segment.
  have hway (n : Nat) (rest : Path) : ∃ replaced next,
      (registerAll {} growing).modules.Way (["A"] ++ rest) replaced next ∧ replaced.length = n := by
    induction n generalizing rest with
    | zero => exact ⟨[], _, .stay, rfl⟩
    | succ n ih =>
      obtain ⟨replaced, next, hway, hlength⟩ := ih ("B" :: rest)
      refine ⟨["A"] :: replaced, next, .replace (List.cons_ne_nil _ _) rfl ?_ hway,
        congrArg (· + 1) hlength⟩
      have hshort : ∀ path ∈ (registerAll {} growing).modules.keys,
          path ≠ ["C", "E"] → path.length ≤ 1 := by decide
      intro path hpath hbegins
      apply hshort path hpath
      rintro rfl
      simp at hbegins
  exact fun n => hway n []

/-- Rewriting an absolute name comes to nothing on a way without an end, and on one that has an end
but replaces a path twice. Wherever the way ends without that, the name is rewritten to its end, and
resolves to what is declared there. -/
theorem rewrite?_ends_unless_repeats (env : Environment) (name : TypeName)
    (habs : name.absolute = true) (context : Path) :
    (env.normalize name context = .error (.moduleLoop name) ↔ env.rewrite? name = none) ∧
    (env.rewrite? name = none ↔ env.modules.Endless name.scope ∨
      env.modules.Repeats name.scope ∧ ∃ result, env.modules.EndsAt name.scope result) ∧
    ∀ result, env.modules.EndsAt name.scope result → ¬ env.modules.Repeats name.scope →
      env.rewrite? name = some (name.inScope result) ∧
      (env.resolve? name context = some (name.inScope result) ↔
        name.inScope result ∈ env.aliasNames) := by
  refine ⟨?_, ?_, ?_⟩
  · rw [normalize_of_absolute habs]
    cases env.rewrite? name with
    | none => simp
    | some key =>
      dsimp only
      split
      · simp
      · simp
  · rw [rewrite?_eq_none_iff]
    constructor
    · exact fun hrepeats => (env.modules.endless_or_endsAt name.scope).imp_right (⟨hrepeats, ·⟩)
    · rintro (hendless | ⟨hrepeats, -⟩)
      · exact hendless.repeats
      · exact hrepeats
  · intro result hends hrepeats
    have hr := rewrite?_of_endsAt hends hrepeats
    refine ⟨hr, ?_⟩
    rw [resolve?_of_absolute habs, declared?, hr, Option.filter_some, aliasNames,
      ← Table.contains_iff]
    simp

/-- A path below the module that it stands for, and a second path for it. -/
def stripping : List Registration :=
  [.identify ⟨"B", ["A"], true⟩ ⟨"A", [], true⟩, .identify ⟨"T", [], true⟩ ⟨"B", ["A"], true⟩,
    .declare ⟨⟨"x", ["A"], true⟩, .base "nil", []⟩]

theorem rewrite?_ends_unless_repeats_stripping :
    (registerAll {} stripping).modules.EndsAt ["T"] ["A"] ∧
      ¬ (registerAll {} stripping).modules.Repeats ["T"] ∧
      (registerAll {} stripping).rewrite? ⟨"x", ["T"], true⟩ = some ⟨"x", ["A"], true⟩ ∧
      (registerAll {} stripping).resolve? ⟨"x", ["T"], true⟩ ["A", "B"] =
        some ⟨"x", ["A"], true⟩ ∧
      (registerAll {} stripping).normalize ⟨"x", ["T", "B"], true⟩ =
        .error (.moduleLoop ⟨"x", ["T", "B"], true⟩) := by
  have h := rewrite?_eq_some_iff.mp
    (show (registerAll {} stripping).modules.rewrite? ["T"] = some ["A"] from rfl)
  obtain ⟨hr, hresolve⟩ := (rewrite?_ends_unless_repeats (registerAll {} stripping)
    ⟨"x", ["T"], true⟩ rfl ["A", "B"]).2.2 ["A"] h.1 h.2
  refine ⟨h.1, h.2, hr, hresolve.mpr (by decide), ?_⟩
  exact (rewrite?_ends_unless_repeats _ _ rfl []).1.mpr rfl

/-- The way ends, and an alias is declared at its end; but it replaces a path twice, and so the name
is taken for one that runs in a circle. -/
theorem resolve?_repeats_stripping :
    (registerAll {} stripping).Reachable ∧
      (registerAll {} stripping).modules.EndsAt ["A", "B", "B"] ["A"] ∧
      ⟨"x", ["A"], true⟩ ∈ (registerAll {} stripping).aliasNames ∧
      (registerAll {} stripping).rewrite? ⟨"x", ["A", "B", "B"], true⟩ = none ∧
      (registerAll {} stripping).normalize ⟨"x", ["A", "B", "B"], true⟩ =
        .error (.moduleLoop ⟨"x", ["A", "B", "B"], true⟩) ∧
      (registerAll {} stripping).resolve? ⟨"x", ["A", "B", "B"], true⟩ = none := by
  have hlast : (registerAll {} stripping).modules.Way (["A", "B"] ++ []) [["A", "B"]] ["A"] :=
    .replace (List.cons_ne_nil _ _) rfl (by decide) .stay
  have hway : (registerAll {} stripping).modules.Way (["A", "B"] ++ ["B"])
      [["A", "B"], ["A", "B"]] ["A"] :=
    .replace (List.cons_ne_nil _ _) rfl (by decide) hlast
  exact ⟨Reachable.empty.registerAll _, ⟨⟨_, hway⟩, normal_iff.mpr rfl⟩, by decide, rfl, rfl, rfl⟩

end Environment

end TypeAlias
