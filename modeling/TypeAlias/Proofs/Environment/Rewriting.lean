import TypeAlias.Proofs.Environment.Registration

/-!
# The way a namespace is rewritten

Rewriting replaces one beginning of a namespace after the other, and wherever on the way it starts,
it ends at the same namespace. So a module alias identifies what is below its two paths as far as it
is the longest registered path there. Below a longer one the two need not stand for the same.
-/

namespace TypeAlias

namespace ModuleAliases

variable {m : ModuleAliases} {namesp result : Path} {p : PathMatch}

theorem longestUpTo?_eq_some_iff {n : Nat} :
    m.longestUpTo? namesp n = some p ↔ ∃ k, 0 < k ∧ k ≤ n ∧ m.matchOf? namesp k = some p ∧
      ∀ j, k < j → j ≤ n → m.get? (namesp.take j) = none := by
  induction n with
  | zero =>
    constructor
    · intro h
      cases h
    · rintro ⟨k, hk, hk', -⟩
      omega
  | succ n ih =>
    rw [longestUpTo?, Option.or_eq_some_iff, ih]
    constructor
    · rintro (hmatch | ⟨hnone, k, hk, hkn, hmatch, hlonger⟩)
      · exact ⟨n + 1, Nat.succ_pos n, Nat.le_refl _, hmatch, fun j hj hj' => by omega⟩
      · refine ⟨k, hk, Nat.le_succ_of_le hkn, hmatch, fun j hj hj' => ?_⟩
        rcases Nat.lt_or_eq_of_le hj' with hlt | rfl
        · exact hlonger j hj (Nat.le_of_lt_succ hlt)
        · exact Option.map_eq_none_iff.mp hnone
    · rintro ⟨k, hk, hkn, hmatch, hlonger⟩
      rcases Nat.lt_or_eq_of_le hkn with hlt | rfl
      · refine Or.inr ⟨Option.map_eq_none_iff.mpr (hlonger _ hlt (Nat.le_refl _)), k, hk,
          Nat.le_of_lt_succ hlt, hmatch, fun j hj hj' => hlonger j hj (by omega)⟩
      · exact Or.inl hmatch

/-- What is replaced is the longest registered beginning. -/
theorem longest?_eq_some_iff :
    m.longest? namesp = some p ↔ p.source ≠ [] ∧ m.get? p.source = some p.target ∧
      namesp = p.source ++ p.rest ∧
      ∀ path ∈ m.keys, path <+: namesp → path.length ≤ p.source.length := by
  rw [longest?, longestUpTo?_eq_some_iff]
  constructor
  · rintro ⟨k, hk, hkn, hmatch, hlonger⟩
    obtain ⟨target, htarget, rfl⟩ := Option.map_eq_some_iff.mp hmatch
    have hlen : (namesp.take k).length = k := List.length_take_of_le hkn
    refine ⟨?_, htarget, (List.take_append_drop k namesp).symm, ?_⟩
    · show namesp.take k ≠ []
      rw [← List.length_pos_iff]
      omega
    · intro path hpath hbegins
      show path.length ≤ (namesp.take k).length
      by_contra hlt
      have hnone := hlonger path.length (by omega) hbegins.length_le
      rw [← List.prefix_iff_eq_take.mp hbegins, Table.get?_eq_none_iff] at hnone
      exact hnone hpath
  · obtain ⟨source, target, rest⟩ := p
    dsimp only
    rintro ⟨hne, htarget, rfl, hlonger⟩
    refine ⟨source.length, List.length_pos_iff.mpr hne, by simp, ?_, ?_⟩
    · rw [matchOf?, List.take_left, List.drop_left, htarget]
      rfl
    · intro j hj hj'
      rw [Table.get?_eq_none_iff]
      intro hmem
      have hle := hlonger _ hmem (List.take_prefix j _)
      rw [List.length_take_of_le hj'] at hle
      omega

/-- More steps, and fewer beginnings that must not come up again, do not change where rewriting
ends. -/
theorem rewriteFrom?_mono {fuel fuel' : Nat} {seen seen' : List Path}
    (h : m.rewriteFrom? fuel seen namesp = some result) (hf : fuel ≤ fuel') (hs : seen' ⊆ seen) :
    m.rewriteFrom? fuel' seen' namesp = some result := by
  induction fuel generalizing fuel' seen seen' namesp with
  | zero => cases h
  | succ fuel ih =>
    obtain ⟨fuel', rfl⟩ := Nat.exists_eq_succ_of_ne_zero (Nat.ne_zero_of_lt hf)
    rw [rewriteFrom?] at h ⊢
    cases hp : m.longest? namesp with
    | none =>
      rw [hp] at h
      exact h
    | some p =>
      rw [hp] at h
      dsimp only at h ⊢
      split at h
      · cases h
      · next hnew =>
        rw [if_neg fun hmem => hnew (hs hmem)]
        exact ih h (Nat.le_of_succ_le_succ hf) (List.cons_subset_cons _ hs)

/-- After a replacement, rewriting ends where it would have ended. -/
theorem rewrite?_replaced (hp : m.longest? namesp = some p) (h : m.rewrite? namesp = some result) :
    m.rewrite? (p.target ++ p.rest) = some result := by
  rw [rewrite?, rewriteFrom?, hp] at h
  dsimp only at h
  rw [if_neg List.not_mem_nil] at h
  exact rewriteFrom?_mono h (Nat.le_succ _) (List.nil_subset _)

/-- Rewriting a namespace ends, and everything that is replaced on the way meets a condition. -/
inductive Throughout (m : ModuleAliases) (condition : PathMatch → Prop) : Path → Prop
  | done {namesp : Path} : m.longest? namesp = none → Throughout m condition namesp
  | replace {p : PathMatch} : m.longest? (p.source ++ p.rest) = some p → condition p →
      Throughout m condition (p.target ++ p.rest) → Throughout m condition (p.source ++ p.rest)

/-- What each replacement keeps is kept from the beginning to the end of the way. -/
theorem Throughout.keeps {P : Path → Prop} {condition : PathMatch → Prop}
    (hc : m.Throughout condition namesp) (h : m.rewrite? namesp = some result)
    (hstep : ∀ p, m.longest? (p.source ++ p.rest) = some p → condition p →
      P (p.source ++ p.rest) → P (p.target ++ p.rest))
    (hstart : P namesp) : P result := by
  induction hc with
  | done hnone =>
    rw [rewrite?_of_longest? hnone, Option.some.injEq] at h
    exact h ▸ hstart
  | replace hp hcondition _ ih =>
    exact ih (rewrite?_replaced hp h) (hstep _ hp hcondition hstart)

end ModuleAliases

namespace Environment

open ModuleAliases

variable {env env' : Environment} {decl : AliasDecl} {new old : TypeName} {p q s : Path}
  {x : String}

theorem modules_addModuleAlias (h : env.addModuleAlias new old = .ok env') :
    new.path ∉ env.modules.keys ∧ env'.modules = (env.withModule new old).modules := by
  unfold addModuleAlias at h
  split at h
  · cases h
  · next hc =>
    constructor
    · exact fun hn => hc (Table.contains_iff.mpr hn)
    · rw [modules_redeclare h]
      rfl

/-- The paths of module aliases are not empty. -/
theorem Reachable.ne_nil_of_mem_modules (h : env.Reachable) (hp : p ∈ env.modules.keys) :
    p ≠ [] := by
  induction h with
  | empty => cases hp
  | declare _ ha ih =>
    obtain ⟨_, _, _, rfl⟩ := addAlias_eq_ok_iff.mp ha
    exact ih hp
  | identify _ ha ih =>
    rw [(modules_addModuleAlias ha).2] at hp
    rcases Table.mem_keys_insert.mp hp with rfl | hp
    · exact List.append_ne_nil_of_right_ne_nil _ (List.cons_ne_nil _ _)
    · exact ih hp

/-- An absolute name means the same in every context. -/
theorem resolve?_of_absolute {name : TypeName} (h : name.absolute = true) (context : Path) :
    env.resolve? name context = env.declared? name := by
  rw [resolve?, candidates, if_pos h, List.findSome?_cons, List.findSome?_nil]
  cases env.declared? name <;> rfl

/-- A name is resolved like the name to which it is rewritten by one replacement. -/
theorem declared?_replaced {n : PathMatch} {x : TypeName}
    (hn : env.modules.longest? (n.source ++ n.rest) = some n)
    (hloop : env.modules.rewrite? (n.source ++ n.rest) ≠ none) :
    env.declared? (x.inScope (n.source ++ n.rest)) =
      env.declared? (x.inScope (n.target ++ n.rest)) := by
  obtain ⟨result, hr⟩ := Option.ne_none_iff_exists'.mp hloop
  have hr' := rewrite?_replaced hn hr
  unfold declared? rewrite?
  show ((env.modules.rewrite? (n.source ++ n.rest)).map _).filter _ =
    ((env.modules.rewrite? (n.target ++ n.rest)).map _).filter _
  rw [hr, hr']
  rfl

/-- A module alias identifies what is below its two paths: names that differ in the path resolve to
the same alias, or both to none, when no longer path is registered in between and rewriting does not
run in a circle. -/
theorem Reachable.resolve?_identified (h : env.Reachable) (hpq : env.modules.get? p = some q)
    (hlongest : ∀ path ∈ env.modules.keys, path <+: p ++ s → path.length ≤ p.length)
    (hloop : env.rewrite? ⟨x, p ++ s, true⟩ ≠ none) (context : Path) :
    env.resolve? ⟨x, p ++ s, true⟩ context = env.resolve? ⟨x, q ++ s, true⟩ context := by
  have hmem : p ∈ env.modules.keys := Table.mem_keys_iff_get?.mpr ⟨q, hpq⟩
  have hp : env.modules.longest? (p ++ s) = some ⟨p, q, s⟩ :=
    longest?_eq_some_iff.mpr ⟨h.ne_nil_of_mem_modules hmem, hpq, rfl, hlongest⟩
  have hr : env.modules.rewrite? (p ++ s) ≠ none := fun hr => hloop (by rw [rewrite?, hr]; rfl)
  rw [resolve?_of_absolute rfl, resolve?_of_absolute rfl]
  exact declared?_replaced (n := ⟨p, q, s⟩) (x := ⟨x, [], true⟩) hp hr

/-- A second path of a module, one of its submodule, and one of what is below the second path. -/
def overlapping : List Registration :=
  [.identify ⟨"A", [], true⟩ ⟨"B", [], true⟩, .identify ⟨"S", ["A"], true⟩ ⟨"C", [], true⟩,
    .identify ⟨"D", [], true⟩ ⟨"T", ["A"], true⟩,
    .declare ⟨⟨"x", ["B", "S"], true⟩, .base "nil", []⟩,
    .declare ⟨⟨"x", ["C"], true⟩, .base "nil", []⟩,
    .declare ⟨⟨"x", ["D", "U"], true⟩, .base "nil", []⟩]

theorem resolve?_identified_overlapping :
    (registerAll {} overlapping).Reachable ∧
      (registerAll {} overlapping).modules.get? ["D"] = some ["A", "T"] ∧
      (registerAll {} overlapping).resolve? ⟨"x", ["D", "U"], true⟩ =
        (registerAll {} overlapping).resolve? ⟨"x", ["A", "T", "U"], true⟩ ∧
      (registerAll {} overlapping).resolve? ⟨"x", ["D", "U"], true⟩ =
        some ⟨"x", ["B", "T", "U"], true⟩ :=
  ⟨Reachable.empty.registerAll _, rfl,
    (Reachable.empty.registerAll overlapping).resolve?_identified (p := ["D"]) (s := ["U"]) rfl
      (by decide) (by decide) [], rfl⟩

/-- Below a longer path that is registered, the shorter one does not identify the two. -/
theorem resolve?_below_longer_overlapping :
    (registerAll {} overlapping).Reachable ∧
      (registerAll {} overlapping).modules.get? ["A"] = some ["B"] ∧
      (registerAll {} overlapping).rewrite? ⟨"x", ["A"] ++ ["S"], true⟩ ≠ none ∧
      (registerAll {} overlapping).rewrite? ⟨"x", ["B"] ++ ["S"], true⟩ ≠ none ∧
      (registerAll {} overlapping).resolve? ⟨"x", ["A"] ++ ["S"], true⟩ =
        some ⟨"x", ["C"], true⟩ ∧
      (registerAll {} overlapping).resolve? ⟨"x", ["B"] ++ ["S"], true⟩ =
        some ⟨"x", ["B", "S"], true⟩ :=
  ⟨Reachable.empty.registerAll _, rfl, by decide, by decide, rfl, rfl⟩

end Environment

end TypeAlias
