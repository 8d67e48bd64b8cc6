import TypeAlias.Environment

/-!
# Canonical names

Whatever is registered, and in whatever order, the declarations of an environment stay under names
that no module alias rewrites any further. So the name of a declared alias stands for itself.
-/

namespace TypeAlias

namespace ModuleAliases

/-- Rewriting ends where no beginning is registered. -/
theorem longest?_of_rewriteFrom? {m : ModuleAliases} {fuel : Nat} {seen : List Path}
    {namesp result : Path} (h : m.rewriteFrom? fuel seen namesp = some result) :
    m.longest? result = none := by
  induction fuel generalizing seen namesp with
  | zero => cases h
  | succ fuel ih =>
    rw [rewriteFrom?] at h
    split at h
    · next hn =>
      cases h
      exact hn
    · split at h
      · cases h
      · exact ih h

/-- Where no beginning is registered, nothing is rewritten. -/
theorem rewrite?_of_longest? {m : ModuleAliases} {namesp : Path} (h : m.longest? namesp = none) :
    m.rewrite? namesp = some namesp := by
  rw [rewrite?, rewriteFrom?, h]

end ModuleAliases

namespace Environment

/-- An absolute name in a namespace that no module alias rewrites. -/
structure Canonical (env : Environment) (name : TypeName) : Prop where
  absolute : name.absolute = true
  rewritten : env.modules.longest? name.scope = none

/-- Every declaration is stored under its name, which is canonical. -/
def WellKeyed (env : Environment) : Prop :=
  ∀ key decl, env.aliases.get? key = some decl → decl.name = key ∧ env.Canonical key

/-- The environments that come about by registrations. -/
inductive Reachable : Environment → Prop where
  | empty : Reachable {}
  | declare {env env' : Environment} {decl : AliasDecl} :
      Reachable env → env.addAlias decl = .ok env' → Reachable env'
  | identify {env env' : Environment} {new old : TypeName} :
      Reachable env → env.addModuleAlias new old = .ok env' → Reachable env'

variable {env env' : Environment} {name key : TypeName} {context : Path}

theorem Canonical.rewrite? (h : env.Canonical name) : env.rewrite? name = some name := by
  rw [Environment.rewrite?, ModuleAliases.rewrite?_of_longest? h.rewritten, Option.map_some,
    TypeName.inScope, ← h.absolute]

/-- A rewritten name is canonical. -/
theorem canonical_of_rewrite? (h : env.rewrite? name = some key) : env.Canonical key := by
  obtain ⟨namesp, hn, rfl⟩ := Option.map_eq_some_iff.mp h
  constructor
  · rfl
  · exact ModuleAliases.longest?_of_rewriteFrom? hn

/-- Storing a declaration under a rewritten name. -/
theorem WellKeyed.insert (h : env.WellKeyed) (hr : env.rewrite? name = some key)
    (decl : AliasDecl) :
    WellKeyed { env with aliases := env.aliases.insert key { decl with name := key } } := by
  intro k d hk
  rw [Table.get?_insert] at hk
  split at hk
  · next he =>
    cases hk
    rw [he]
    exact ⟨rfl, (canonical_of_rewrite? hr).absolute, (canonical_of_rewrite? hr).rewritten⟩
  · obtain ⟨hname, hc⟩ := h k d hk
    exact ⟨hname, hc.absolute, hc.rewritten⟩

/-- When an alias is declared, and what comes of it. -/
theorem addAlias_eq_ok_iff {decl : AliasDecl} :
    env.addAlias decl = .ok env' ↔ ∃ key, env.rewrite? decl.name.toAbsolute = some key ∧
      key ∉ env.aliases.keys ∧
      env' = { env with aliases := env.aliases.insert key { decl with name := key } } := by
  unfold addAlias
  dsimp only
  cases hr : env.rewrite? decl.name.toAbsolute with
  | none => simp
  | some key =>
    by_cases hk : key ∈ env.aliases.keys
    · simp [Table.contains_iff.mpr hk, hk]
    · have hc : ¬ env.aliases.contains key = true := fun h => hk (Table.contains_iff.mp h)
      simp [hc, hk, eq_comm]

theorem WellKeyed.addAlias (h : env.WellKeyed) {decl : AliasDecl}
    (ha : env.addAlias decl = .ok env') : env'.WellKeyed := by
  obtain ⟨key, hr, -, rfl⟩ := addAlias_eq_ok_iff.mp ha
  exact h.insert hr decl

theorem WellKeyed.redeclare {decls : List AliasDecl} (h : env.WellKeyed)
    (hr : env.redeclare decls = .ok env') : env'.WellKeyed := by
  induction decls generalizing env with
  | nil =>
    cases hr
    exact h
  | cons decl decls ih =>
    rw [Environment.redeclare] at hr
    split at hr
    · cases hr
    · next hw =>
      split at hr
      · cases hr
      · exact ih (h.insert hw decl) hr

theorem WellKeyed.addModuleAlias {new old : TypeName}
    (ha : env.addModuleAlias new old = .ok env') : env'.WellKeyed := by
  unfold Environment.addModuleAlias at ha
  split at ha
  · cases ha
  · apply WellKeyed.redeclare _ ha
    intro key decl hk
    cases hk

theorem Reachable.wellKeyed (h : env.Reachable) : env.WellKeyed := by
  induction h with
  | empty =>
    intro key decl hk
    cases hk
  | declare _ ha ih => exact ih.addAlias ha
  | identify _ ha _ => exact WellKeyed.addModuleAlias ha

/-- One registration after the other. -/
theorem Reachable.foldlM {β : Type} {f : Environment → β → Except RegistrationError Environment}
    (hf : ∀ env b env', env.Reachable → f env b = .ok env' → env'.Reachable) {bs : List β}
    (h : env.Reachable) (hr : bs.foldlM f env = .ok env') : env'.Reachable := by
  induction bs generalizing env with
  | nil =>
    cases hr
    exact h
  | cons b bs ih =>
    rw [List.foldlM_cons] at hr
    cases hb : f env b with
    | error e =>
      rw [hb] at hr
      cases hr
    | ok next =>
      rw [hb] at hr
      exact ih (hf env b next h hb) hr

theorem reachable_build {modules : List (TypeName × TypeName)} {decls : List AliasDecl}
    (h : build modules decls = .ok env) : env.Reachable := by
  unfold build at h
  cases hm : modules.foldlM (fun env m => addModuleAlias env m.1 m.2) { } with
  | error e =>
    rw [hm] at h
    cases h
  | ok start =>
    rw [hm] at h
    have hstart := Reachable.foldlM (fun _ _ _ => Reachable.identify) Reachable.empty hm
    exact Reachable.foldlM (fun _ _ _ => Reachable.declare) hstart h

theorem mem_aliasNames_iff :
    key ∈ env.aliasNames ↔ ∃ decl, env.aliases.get? key = some decl :=
  Table.mem_keys_iff_get?

theorem WellKeyed.canonical (h : env.WellKeyed) (hk : key ∈ env.aliasNames) :
    env.Canonical key := by
  obtain ⟨decl, hd⟩ := mem_aliasNames_iff.mp hk
  exact (h key decl hd).2

/-- In whatever context it is written, the name of a declared alias stands for itself. -/
theorem WellKeyed.normalize (h : env.WellKeyed) (hk : key ∈ env.aliasNames) (context : Path) :
    env.normalize key context = .ok key := by
  have hc := h.canonical hk
  have hd : env.aliases.contains key = true := Table.contains_iff.mpr hk
  rw [Environment.normalize, candidates, if_pos hc.absolute, normalizeFirst, hc.rewrite?]
  exact if_pos hd

/-- A written name stands for nothing but declared aliases. -/
theorem mem_aliasNames_of_normalizeFirst {cands : List TypeName}
    (h : env.normalizeFirst name cands = .ok key) : key ∈ env.aliasNames := by
  induction cands with
  | nil => cases h
  | cons candidate rest ih =>
    rw [normalizeFirst] at h
    split at h
    · cases h
    · split at h
      · next hd =>
        cases h
        exact Table.contains_iff.mp hd
      · exact ih h

theorem mem_aliasNames_of_normalize (h : env.normalize name context = .ok key) :
    key ∈ env.aliasNames :=
  mem_aliasNames_of_normalizeFirst h

end Environment

end TypeAlias
