import Mathlib.Data.List.Nodup
import TypeAlias.Proofs.Environment.Canonical
import TypeAlias.Registration

/-!
# Registrations are all or nothing

A registration that fails leaves the environment as it was. One that succeeds adds an entry; when
that is a module alias, every declaration stays in its place, under the name that its name is
rewritten to from then on. So whatever is registered, with or without success, what is declared
stays under canonical names.
-/

namespace TypeAlias

namespace ModuleAliases

variable {m : ModuleAliases} {namesp : Path}

theorem longestUpTo?_eq_none_iff {n : Nat} :
    m.longestUpTo? namesp n = none ↔ ∀ k, 0 < k → k ≤ n → m.get? (namesp.take k) = none := by
  induction n with
  | zero =>
    constructor
    · intro _ k hk hk'
      omega
    · exact fun _ => rfl
  | succ n ih =>
    rw [longestUpTo?, Option.or_eq_none_iff, ih, matchOf?, Option.map_eq_none_iff]
    constructor
    · rintro ⟨hn, hrest⟩ k hk hk'
      rcases Nat.lt_or_eq_of_le hk' with hlt | rfl
      · exact hrest k hk (Nat.le_of_lt_succ hlt)
      · exact hn
    · intro h
      exact ⟨h (n + 1) (Nat.succ_pos n) (Nat.le_refl _), fun k hk hk' => h k hk (by omega)⟩

/-- Nothing is rewritten just when no beginning of the namespace is registered. -/
theorem longest?_eq_none_iff :
    m.longest? namesp = none ↔ ∀ p, p <+: namesp → p ≠ [] → m.contains p = false := by
  rw [longest?, longestUpTo?_eq_none_iff]
  constructor
  · intro h p hp hne
    have hlen := h p.length (List.length_pos_iff.mpr hne) hp.length_le
    rw [← List.prefix_iff_eq_take.mp hp] at hlen
    rw [Table.contains, hlen]
    rfl
  · intro h k hk hk'
    have hne : namesp.take k ≠ [] := by
      rw [← List.length_pos_iff, List.length_take]
      omega
    simpa [Table.contains] using h _ (List.take_prefix k namesp) hne

end ModuleAliases

namespace Environment

variable {env env' : Environment} {decls : List AliasDecl}

/-- An entry moves to the name that its name is rewritten to; nothing else of the declaration
changes. -/
structure Moves (env : Environment) (e e' : TypeName × AliasDecl) : Prop where
  key : env.rewrite? e.1 = some e'.1
  decl : e'.2 = { e.2 with name := e'.1 }

theorem rewrite?_congr (h : env'.modules = env.modules) : env'.rewrite? = env.rewrite? := by
  unfold rewrite?
  rw [h]

/-- Where entries move depends on nothing but what names are rewritten to. -/
theorem moves_of_rewrite? (hr : env'.rewrite? = env.rewrite?) : env'.Moves = env.Moves := by
  funext e e'
  apply propext
  constructor
  · exact fun hm => ⟨hr ▸ hm.key, hm.decl⟩
  · exact fun hm => ⟨hr ▸ hm.key, hm.decl⟩

theorem moves_congr (h : env'.modules = env.modules) : env'.Moves = env.Moves :=
  moves_of_rewrite? (rewrite?_congr h)

theorem eq_of_entries (hm : env'.modules = env.modules)
    (ha : env'.aliases.entries = env.aliases.entries) : env' = env := by
  obtain ⟨aliases, modules⟩ := env
  obtain ⟨aliases', modules'⟩ := env'
  rw [show modules' = modules from hm, show aliases' = aliases from Table.ext ha]

/-- The entries of declarations under the names that they have. -/
def named (decls : List AliasDecl) : List (TypeName × AliasDecl) :=
  decls.map fun decl => (decl.name, decl)

theorem WellKeyed.named_values (h : env.WellKeyed) :
    named env.aliases.values = env.aliases.entries := by
  have hname : ∀ e ∈ env.aliases.entries, (e.2.name, e.2) = e := by
    rintro ⟨key, decl⟩ he
    rw [(h key decl (Table.get?_eq_some_iff.mpr he)).1]
  rw [named, Table.values, List.map_map]
  exact (List.map_congr_left hname).trans (List.map_id' _)

/-- Declaring again succeeds just when every declaration can move and none comes upon another. The
entries that have moved then follow those that were there. -/
theorem redeclare_eq_ok_iff :
    env.redeclare decls = .ok env' ↔ ∃ entries,
      List.Forall₂ env.Moves (named decls) entries ∧
      (env.aliases.keys ++ entries.map Prod.fst).Nodup ∧
      env'.modules = env.modules ∧ env'.aliases.entries = env.aliases.entries ++ entries := by
  induction decls generalizing env with
  | nil =>
    rw [redeclare, Except.ok.injEq]
    constructor
    · rintro rfl
      refine ⟨[], List.Forall₂.nil, ?_, rfl, (List.append_nil _).symm⟩
      rw [List.map_nil, List.append_nil]
      exact env.aliases.nodup_keys
    · rintro ⟨entries, hm, _, hmod, he⟩
      cases hm
      rw [List.append_nil] at he
      exact (eq_of_entries hmod he).symm
  | cons decl decls ih =>
    rw [redeclare]
    cases hr : env.rewrite? decl.name with
    | none =>
      simp only [reduceCtorEq, false_iff]
      rintro ⟨_, hm, _⟩
      obtain ⟨_, _, hmove, _, _⟩ := List.forall₂_cons_left_iff.mp hm
      have hkey : env.rewrite? decl.name = some _ := hmove.key
      rw [hr] at hkey
      cases hkey
    | some key =>
      dsimp only
      -- There is one entry that the declaration can move to.
      have first {e : TypeName × AliasDecl} (hmove : env.Moves (decl.name, decl) e) :
          e = (key, { decl with name := key }) := by
        obtain ⟨hkey, hdecl⟩ := hmove
        obtain rfl : key = e.1 := Option.some.inj (hr.symm.trans hkey)
        exact Prod.ext rfl hdecl
      by_cases hk : key ∈ env.aliases.keys
      · rw [if_pos (Table.contains_iff.mpr hk)]
        simp only [reduceCtorEq, false_iff]
        rintro ⟨_, hm, hn, _⟩
        obtain ⟨e, rest, hmove, _, rfl⟩ := List.forall₂_cons_left_iff.mp hm
        rw [first hmove] at hn
        exact (List.nodup_append.mp hn).2.2 key hk key (by simp) rfl
      · have hc : ¬ env.aliases.contains key = true := fun h => hk (Table.contains_iff.mp h)
        have hmoves : Moves { env with aliases := env.aliases.insert key { decl with name := key } } =
            env.Moves := moves_congr rfl
        rw [if_neg hc, ih, hmoves, Table.entries_insert_of_not_mem hk, Table.keys_insert, if_neg hk]
        constructor
        · rintro ⟨rest, hm, hn, hmod, he⟩
          refine ⟨(key, { decl with name := key }) :: rest, ?_, ?_, hmod, ?_⟩
          · exact List.Forall₂.cons ⟨hr, rfl⟩ hm
          · simpa using hn
          · simpa using he
        · rintro ⟨_, hm, hn, hmod, he⟩
          obtain ⟨e, rest, hmove, hrest, rfl⟩ := List.forall₂_cons_left_iff.mp hm
          rw [first hmove] at hn he
          refine ⟨rest, hrest, ?_, hmod, ?_⟩
          · simpa using hn
          · simpa using he

/-- Some of the names runs in a circle, or two of them are rewritten to the same name. -/
def Stuck (env : Environment) (names : List TypeName) : Prop :=
  (∃ name ∈ names, env.rewrite? name = none) ∨
    ∃ a ∈ names, ∃ b ∈ names, a ≠ b ∧ ∃ key, env.rewrite? a = some key ∧ env.rewrite? b = some key

theorem keys_of_moves {es es' : List (TypeName × AliasDecl)} (h : List.Forall₂ env.Moves es es') :
    (es'.map Prod.fst).map some = (es.map Prod.fst).map env.rewrite? := by
  induction h with
  | nil => rfl
  | cons hm _ ih => rw [List.map_cons, List.map_cons, List.map_cons, List.map_cons, ih, hm.key]

theorem exists_moves {es : List (TypeName × AliasDecl)}
    (h : ∀ name ∈ es.map Prod.fst, env.rewrite? name ≠ none) :
    ∃ es', List.Forall₂ env.Moves es es' := by
  induction es with
  | nil => exact ⟨[], List.Forall₂.nil⟩
  | cons e es ih =>
    obtain ⟨key, hkey⟩ := Option.ne_none_iff_exists'.mp (h e.1 List.mem_cons_self)
    obtain ⟨es', hes⟩ := ih fun name hn => h name (List.mem_cons_of_mem _ hn)
    exact ⟨(key, { e.2 with name := key }) :: es', List.Forall₂.cons ⟨hkey, rfl⟩ hes⟩

/-- Entries under different names can all move, each to a name of its own, unless they are stuck. -/
theorem exists_moves_nodup_iff {es : List (TypeName × AliasDecl)} (hn : (es.map Prod.fst).Nodup) :
    (∃ es', List.Forall₂ env.Moves es es' ∧ (es'.map Prod.fst).Nodup) ↔
      ¬ env.Stuck (es.map Prod.fst) := by
  constructor
  · rintro ⟨es', hm, hn'⟩ (⟨name, hname, hr⟩ | ⟨a, ha, b, hb, hab, key, hra, hrb⟩)
    · have hmem := List.mem_map_of_mem (f := env.rewrite?) hname
      rw [← keys_of_moves hm, hr, List.mem_map] at hmem
      obtain ⟨_, _, hnone⟩ := hmem
      cases hnone
    · have hinj : ((es.map Prod.fst).map env.rewrite?).Nodup := by
        rw [← keys_of_moves hm]
        exact hn'.map fun _ _ => Option.some.inj
      exact hab (List.inj_on_of_nodup_map hinj ha hb (hra.trans hrb.symm))
  · intro h
    rw [Stuck, not_or] at h
    push Not at h
    obtain ⟨hnone, hclash⟩ := h
    obtain ⟨es', hm⟩ := exists_moves hnone
    refine ⟨es', hm, List.Nodup.of_map some ?_⟩
    rw [keys_of_moves hm]
    apply hn.map_on
    intro a ha b hb hab
    by_contra hne
    obtain ⟨key, hkey⟩ := Option.ne_none_iff_exists'.mp (hnone a ha)
    exact hclash a ha b hb hne key hkey (hab ▸ hkey)

/-- What is declared can be declared again, with other module aliases, unless its names are stuck. -/
theorem exists_redeclare_error_iff (he : env.aliases = ∅) (hn : (decls.map AliasDecl.name).Nodup) :
    (∃ e, env.redeclare decls = .error e) ↔ env.Stuck (decls.map AliasDecl.name) := by
  have hnames : (named decls).map Prod.fst = decls.map AliasDecl.name := by
    rw [named, List.map_map]
    rfl
  have hkeys : env.aliases.keys = [] := by
    rw [he]
    rfl
  have hok : (∃ env', env.redeclare decls = .ok env') ↔ ¬ env.Stuck (decls.map AliasDecl.name) := by
    rw [← hnames] at hn ⊢
    rw [← exists_moves_nodup_iff hn]
    simp only [redeclare_eq_ok_iff, hkeys, List.nil_append]
    constructor
    · rintro ⟨_, entries, hm, hnd, _⟩
      exact ⟨entries, hm, hnd⟩
    · rintro ⟨entries, hm, hnd⟩
      refine ⟨⟨⟨entries, hnd⟩, env.modules⟩, entries, hm, hnd, rfl, ?_⟩
      rw [he]
      rfl
  rw [← not_iff_not, ← hok]
  cases env.redeclare decls <;> simp

theorem modules_redeclare (h : env.redeclare decls = .ok env') : env'.modules = env.modules := by
  obtain ⟨_, _, _, hmod, _⟩ := redeclare_eq_ok_iff.mp h
  exact hmod

variable {new old : TypeName} {decl : AliasDecl} {e : RegistrationError}

theorem withoutModule_withModule (h : ¬ env.modules.contains new.path = true) :
    (env.withModule new old).withoutModule new = env := by
  have hn : new.path ∉ env.modules.keys := fun hm => h (Table.contains_iff.mpr hm)
  rw [withoutModule, withModule, Table.erase_insert_of_not_mem hn]

/-- A module alias that is written first, and taken out when nothing can move, is registered all at
once or not at all. -/
theorem identify_eq_commit (env : Environment) (new old : TypeName) :
    env.identify new old = env.commit (env.addModuleAlias new old) := by
  unfold identify addModuleAlias
  split
  · rfl
  · next hc =>
    show _ = env.commit (redeclare { env.withModule new old with aliases := ∅ }
      (env.withModule new old).aliases.values)
    dsimp only
    split
    · next he =>
      rw [he, withoutModule_withModule hc]
      rfl
    · next moved hm =>
      have hmod := modules_redeclare hm
      rw [hm, commit, ← hmod]

theorem commit_error {result : Except RegistrationError Environment}
    (h : (env.commit result).1 = .error e) : (env.commit result).2 = env := by
  cases result with
  | error e' => rfl
  | ok env' => cases h

theorem exists_commit_error_iff {result : Except RegistrationError Environment} :
    (∃ e, (env.commit result).1 = .error e) ↔ ∃ e, result = .error e := by
  cases result <;> simp [commit]

theorem WellKeyed.names_values (h : env.WellKeyed) :
    env.aliases.values.map AliasDecl.name = env.aliasNames := by
  have hv := congrArg (List.map Prod.fst) h.named_values
  rwa [named, List.map_map] at hv

/-- When a module alias cannot be registered. -/
theorem WellKeyed.exists_addModuleAlias_error_iff (h : env.WellKeyed) :
    (∃ e, env.addModuleAlias new old = .error e) ↔
      env.modules.contains new.path = true ∨ (env.withModule new old).Stuck env.aliasNames := by
  unfold Environment.addModuleAlias
  split
  · next hc => simp [hc]
  · next hc =>
    have hnodup : (env.aliases.values.map AliasDecl.name).Nodup :=
      h.names_values ▸ env.aliases.nodup_keys
    rw [exists_redeclare_error_iff rfl hnodup, h.names_values, or_iff_right hc]
    rfl

/-- What a module alias changes. -/
theorem WellKeyed.addModuleAlias_ok (h : env.WellKeyed)
    (ha : env.addModuleAlias new old = .ok env') :
    env'.modules.entries = env.modules.entries ++ [(new.path, old.path)] ∧
      List.Forall₂ (env.withModule new old).Moves env.aliases.entries env'.aliases.entries := by
  unfold Environment.addModuleAlias at ha
  split at ha
  · cases ha
  · next hc =>
    obtain ⟨entries, hm, _, hmod, he⟩ := redeclare_eq_ok_iff.mp ha
    have hn : new.path ∉ env.modules.keys := fun hk => hc (Table.contains_iff.mpr hk)
    constructor
    · rw [hmod]
      exact Table.entries_insert_of_not_mem hn old.path
    · have hmoves : (env.withModule new old).Moves =
          Moves { env.withModule new old with aliases := ∅ } := moves_congr rfl
      rw [he, ← h.named_values, hmoves]
      exact hm

/-- When an alias cannot be declared. -/
theorem exists_addAlias_error_iff :
    (∃ e, env.addAlias decl = .error e) ↔
      env.rewrite? decl.name.toAbsolute = none ∨
        ∃ key ∈ env.aliasNames, env.rewrite? decl.name.toAbsolute = some key := by
  unfold addAlias
  dsimp only
  cases hr : env.rewrite? decl.name.toAbsolute with
  | none => simp
  | some key =>
    by_cases hk : key ∈ env.aliasNames
    · simp [Table.contains_iff.mpr hk, hk]
    · have hc : ¬ env.aliases.contains key = true := fun h => hk (Table.contains_iff.mp h)
      simp [hc, hk]

theorem Reachable.register (h : env.Reachable) (r : Registration) :
    (env.register r).2.Reachable := by
  have commit {result : Except RegistrationError Environment}
      (hr : ∀ env', result = .ok env' → env'.Reachable) : (env.commit result).2.Reachable := by
    cases result with
    | error e => exact h
    | ok env' => exact hr env' rfl
  cases r with
  | declare decl => exact commit fun _ => h.declare
  | identify new old =>
    show (env.identify new old).2.Reachable
    rw [identify_eq_commit]
    exact commit fun _ => h.identify

theorem Reachable.registerAll (h : env.Reachable) (rs : List Registration) :
    (env.registerAll rs).Reachable := by
  induction rs generalizing env with
  | nil => exact h
  | cons r rs ih => exact ih (h.register r)

/-- After any registrations, with or without success, every key of the table of aliases is an
absolute name, it is the name of what is declared under it, and no beginning of its namespace is the
path of a module alias; so it is rewritten to itself. -/
theorem canonical_registerAll (rs : List Registration) {key : TypeName}
    (h : (registerAll {} rs).aliases.get? key = some decl) :
    key.absolute = true ∧ decl.name = key ∧
      (∀ p, p <+: key.scope → p ≠ [] → (registerAll {} rs).modules.contains p = false) ∧
      (registerAll {} rs).rewrite? key = some key := by
  obtain ⟨hname, hc⟩ := (Reachable.empty.registerAll rs).wellKeyed key decl h
  exact ⟨hc.absolute, hname, ModuleAliases.longest?_eq_none_iff.mp hc.rewritten, hc.rewrite?⟩

/-- Registrations some of which fail: a name that is taken, a module alias with which two names would
be the same, and one that would make a circle. -/
def crossing : List Registration :=
  [.identify ⟨"k", [], false⟩ ⟨"m", [], false⟩,
    .declare ⟨⟨"t", ["k"], false⟩, .optional (.parameter "x"), ["x"]⟩,
    .declare ⟨⟨"t", ["m"], true⟩, .base "nil", []⟩,
    .declare ⟨⟨"t", ["n", "k"], true⟩, .base "nil", []⟩,
    .identify ⟨"k", ["n"], true⟩ ⟨"k", [], false⟩,
    .identify ⟨"m", [], false⟩ ⟨"k", [], false⟩,
    .identify ⟨"m", [], false⟩ ⟨"m", ["o"], true⟩]

theorem canonical_registerAll_crossing :
    (registerAll {} crossing).aliases.get? ⟨"t", ["o", "m"], true⟩ =
        some ⟨⟨"t", ["o", "m"], true⟩, .optional (.parameter "x"), ["x"]⟩ ∧
      (∀ p, p <+: ["o", "m"] → p ≠ [] → (registerAll {} crossing).modules.contains p = false) ∧
      (registerAll {} crossing).rewrite? ⟨"t", ["o", "m"], true⟩ = some ⟨"t", ["o", "m"], true⟩ := by
  have h : (registerAll {} crossing).aliases.get? ⟨"t", ["o", "m"], true⟩ =
      some ⟨⟨"t", ["o", "m"], true⟩, .optional (.parameter "x"), ["x"]⟩ := rfl
  exact ⟨h, (canonical_registerAll crossing h).2.2⟩

/-- Registering is all or nothing. -/
structure AllOrNothing (env : Environment) : Prop where
  /-- A module alias cannot be registered when its path is taken, or when with it the name of a
  declared alias runs in a circle or the names of two of them come to the same. -/
  identify_error_iff : ∀ new old, (∃ e, (env.identify new old).1 = .error e) ↔
    env.modules.contains new.path = true ∨
    (∃ name ∈ env.aliasNames, (env.withModule new old).rewrite? name = none) ∨
    ∃ a ∈ env.aliasNames, ∃ b ∈ env.aliasNames, a ≠ b ∧ ∃ key,
      (env.withModule new old).rewrite? a = some key ∧
      (env.withModule new old).rewrite? b = some key
  identify_error : ∀ new old e, (env.identify new old).1 = .error e →
    (env.identify new old).2 = env
  /-- Otherwise its entry is added, and every declaration keeps its place, and all of it but its
  name, which is rewritten with the new module alias. -/
  identify_ok : ∀ new old, (env.identify new old).1 = .ok () →
    (env.identify new old).2.modules.entries = env.modules.entries ++ [(new.path, old.path)] ∧
    List.Forall₂ (env.withModule new old).Moves env.aliases.entries
      (env.identify new old).2.aliases.entries
  /-- An alias cannot be declared when its name runs in a circle or is taken. -/
  declare_error_iff : ∀ decl, (∃ e, (env.declare decl).1 = .error e) ↔
    env.rewrite? decl.name.toAbsolute = none ∨
    ∃ key ∈ env.aliasNames, env.rewrite? decl.name.toAbsolute = some key
  declare_error : ∀ decl e, (env.declare decl).1 = .error e → (env.declare decl).2 = env

theorem Reachable.register_allOrNothing (h : env.Reachable) : env.AllOrNothing := by
  constructor
  case identify_error_iff =>
    intro new old
    rw [identify_eq_commit, exists_commit_error_iff]
    exact h.wellKeyed.exists_addModuleAlias_error_iff
  case identify_error =>
    intro new old e
    rw [identify_eq_commit]
    exact commit_error
  case identify_ok =>
    intro new old hok
    rw [identify_eq_commit] at hok ⊢
    cases ha : env.addModuleAlias new old with
    | error e =>
      rw [ha] at hok
      cases hok
    | ok env' => exact h.wellKeyed.addModuleAlias_ok ha
  case declare_error_iff =>
    intro decl
    rw [Environment.declare, exists_commit_error_iff]
    exact exists_addAlias_error_iff
  case declare_error => exact fun decl e => commit_error

theorem register_allOrNothing_crossing :
    (registerAll {} (crossing.take 4)).Reachable ∧ AllOrNothing (registerAll {} (crossing.take 4)) ∧
      ((registerAll {} (crossing.take 4)).identify ⟨"k", ["n"], true⟩ ⟨"k", [], false⟩).1 =
        .error (.duplicate ⟨"t", ["m"], true⟩) ∧
      ((registerAll {} (crossing.take 4)).identify ⟨"m", [], false⟩ ⟨"k", [], false⟩).1 =
        .error (.moduleLoop ⟨"t", ["m"], true⟩) ∧
      ((registerAll {} (crossing.take 4)).identify ⟨"m", [], false⟩ ⟨"m", ["o"], true⟩).1 = .ok () :=
  ⟨Reachable.empty.registerAll _,
    Reachable.register_allOrNothing (Reachable.empty.registerAll _), rfl, rfl, rfl⟩

end Environment

end TypeAlias
