import Mathlib.Data.List.Perm.Basic
import TypeAlias.Proofs.Access
import TypeAlias.Proofs.Environment.Rewriting

/-!
# The order of registrations

An alias that was declared before a module alias was registered moves to the name that it would
have got afterwards, as long as nothing that was replaced in its namespace is part of a longer path
from then on. And in whatever order the module aliases and the declarations of an environment are
given, the former first, they make the same environment but for the order of its entries.
-/

namespace TypeAlias

/-- What is in a table does not depend on the order of its entries. -/
theorem Table.get?_of_perm {κ ν : Type} [DecidableEq κ] {t u : Table κ ν}
    (h : t.entries.Perm u.entries) : t.get? = u.get? := by
  funext k
  apply Option.ext
  intro v
  rw [get?_eq_some_iff, get?_eq_some_iff, h.mem_iff]

/-- With a further path, what is replaced is still the longest registered beginning. -/
def PathMatch.StaysLongest (new : Path) (p : PathMatch) : Prop :=
  new <+: p.source ++ p.rest → new.length ≤ p.source.length

instance (new : Path) (p : PathMatch) : Decidable (p.StaysLongest new) :=
  inferInstanceAs (Decidable (_ → _))

namespace ModuleAliases

variable {m m' : ModuleAliases} {namesp stop result new old : Path}

/-- With a further module alias that changes nothing on the way, a namespace is rewritten to what
the end of the way is rewritten to. -/
theorem rewrite?_insert (hn : new ∉ m.keys) (hm : m' = m.insert new old)
    (h : m.rewrite? namesp = some stop)
    (hc : m.Throughout (PathMatch.StaysLongest new) namesp)
    (hr : m'.rewrite? namesp = some result) : m'.rewrite? stop = some result := by
  apply hc.keeps (P := fun stop => m'.rewrite? stop = some result) h ?_ hr
  intro p hp hshort
  apply rewrite?_replaced
  obtain ⟨hne, htarget, -, hlongest⟩ := longest?_eq_some_iff.mp hp
  rw [hm]
  refine longest?_eq_some_iff.mpr ⟨hne, ?_, rfl, fun path hpath hbegins => ?_⟩
  · have hsource : p.source ≠ new := by
      rintro rfl
      exact hn (Table.mem_keys_iff_get?.mpr ⟨_, htarget⟩)
    rw [Table.get?_insert, if_neg hsource, htarget]
  · rcases Table.mem_keys_insert.mp hpath with rfl | hpath
    · exact hshort hbegins
    · exact hlongest path hpath hbegins

theorem longest?_of_perm (h : m.entries.Perm m'.entries) (namesp : Path) :
    m.longest? namesp = m'.longest? namesp := by
  have hmatch : m.matchOf? namesp = m'.matchOf? namesp := by
    funext n
    rw [matchOf?, matchOf?, Table.get?_of_perm h]
  have hupTo (n : Nat) : m.longestUpTo? namesp n = m'.longestUpTo? namesp n := by
    induction n with
    | zero => rfl
    | succ n ih => rw [longestUpTo?, longestUpTo?, hmatch, ih]
  exact hupTo _

/-- How a namespace is rewritten does not depend on the order of the module aliases. -/
theorem rewrite?_of_perm (h : m.entries.Perm m'.entries) (namesp : Path) :
    m.rewrite? namesp = m'.rewrite? namesp := by
  have hfrom (fuel : Nat) (seen : List Path) (namesp : Path) :
      m.rewriteFrom? fuel seen namesp = m'.rewriteFrom? fuel seen namesp := by
    induction fuel generalizing seen namesp with
    | zero => rfl
    | succ fuel ih =>
      rw [rewriteFrom?, rewriteFrom?, longest?_of_perm h]
      cases m'.longest? namesp with
      | none => rfl
      | some p => simp only [ih]
  have hsize : m.size = m'.size := h.length_eq
  rw [rewrite?, rewrite?, hsize, hfrom]

end ModuleAliases

namespace Environment

open ModuleAliases

variable {env env' before after : Environment} {decl : AliasDecl} {new old : TypeName}

/-- There is one entry that an entry can move to. -/
theorem rightUnique_moves (env : Environment) : Relator.RightUnique env.Moves := by
  intro e e₁ e₂ h₁ h₂
  have hkey : e₁.1 = e₂.1 := Option.some.inj (h₁.key.symm.trans h₂.key)
  exact Prod.ext hkey (h₁.decl.trans (hkey ▸ h₂.decl.symm))

/-- With a further module alias, a name and what it was rewritten to before are rewritten to the
same. -/
theorem rewrite?_withModule {name key key' : TypeName} (hn : new.path ∉ env.modules.keys)
    (hkey : env.rewrite? name = some key)
    (hc : env.modules.Throughout (PathMatch.StaysLongest new.path) name.scope)
    (hkey' : (env.withModule new old).rewrite? name = some key') :
    (env.withModule new old).rewrite? key = some key' := by
  obtain ⟨stop, hstop, rfl⟩ := Option.map_eq_some_iff.mp hkey
  obtain ⟨result, hresult, rfl⟩ := Option.map_eq_some_iff.mp hkey'
  have hr : (env.withModule new old).modules.rewrite? stop = some result :=
    rewrite?_insert hn rfl hstop hc hresult
  rw [rewrite?, show (name.inScope stop).scope = stop from rfl, hr]
  rfl

/-- When the last of some entries can move as well, its new entry is the last one. -/
theorem moves_last {es es' : List (TypeName × AliasDecl)} {e : TypeName × AliasDecl}
    (h : List.Forall₂ env.Moves (es ++ [e]) es') :
    ∃ rest last, es' = rest ++ [last] ∧ List.Forall₂ env.Moves es rest ∧ env.Moves e last := by
  have hrest := List.forall₂_take_append _ _ _ h.flip
  have hlast := List.forall₂_drop_append _ _ _ h.flip
  obtain ⟨last, _, hmove, hnil, hdrop⟩ := List.forall₂_cons_right_iff.mp hlast
  obtain rfl := List.forall₂_nil_right_iff.mp hnil
  refine ⟨es'.take es.length, last, ?_, hrest.flip, hmove⟩
  rw [← hdrop, List.take_append_drop]

/-- Whether an alias is declared before or after a module alias is registered, nothing but its own
name can differ. It does not when all that is replaced in its namespace stays the longest registered
beginning with the new path. -/
theorem Reachable.declare_identify_comm (h : env.Reachable)
    (hb : (env.addAlias decl >>= fun env => env.addModuleAlias new old) = .ok before)
    (ha : (env.addModuleAlias new old >>= fun env => env.addAlias decl) = .ok after) :
    before.modules = after.modules ∧
      (∃ others key key',
        before.aliases.entries = others ++ [(key, { decl with name := key })] ∧
        after.aliases.entries = others ++ [(key', { decl with name := key' })]) ∧
      (env.modules.Throughout (PathMatch.StaysLongest new.path) decl.name.scope →
        before = after) := by
  obtain ⟨env₁, hdeclare, hidentify⟩ := bind_ok hb
  obtain ⟨env₂, hidentify', hdeclare'⟩ := bind_ok ha
  obtain ⟨hpath, hmod⟩ := modules_addModuleAlias hidentify'
  obtain ⟨-, hbefore⟩ := (h.wellKeyed.addAlias hdeclare).addModuleAlias_ok hidentify
  obtain ⟨-, hafter⟩ := h.wellKeyed.addModuleAlias_ok hidentify'
  obtain ⟨key, hkey, hnew, rfl⟩ := addAlias_eq_ok_iff.mp hdeclare
  obtain ⟨key', hkey', hnew', rfl⟩ := addAlias_eq_ok_iff.mp hdeclare'
  -- In both orders the declaration comes last, and the others move as they would without it.
  have hsame : (withModule { env with aliases := env.aliases.insert key { decl with name := key } }
      new old).Moves = (env.withModule new old).Moves := moves_congr rfl
  rw [hsame, Table.entries_insert_of_not_mem hnew] at hbefore
  obtain ⟨others, ⟨moved, decl'⟩, hentries, hothers, hmove⟩ := moves_last hbefore
  obtain rfl : decl' = { decl with name := moved } := hmove.decl
  obtain rfl := List.right_unique_forall₂' (rightUnique_moves _) hothers hafter
  have hmodules : before.modules = env₂.modules :=
    (modules_addModuleAlias hidentify).2.trans hmod.symm
  have hentries' := Table.entries_insert_of_not_mem hnew' { decl with name := key' }
  refine ⟨hmodules, ⟨_, moved, key', hentries, hentries'⟩, fun hc => ?_⟩
  rw [rewrite?_congr hmod] at hkey'
  obtain rfl : moved = key' := Option.some.inj
    (hmove.key.symm.trans (rewrite?_withModule hpath hkey hc hkey'))
  exact eq_of_entries hmodules (hentries.trans hentries'.symm)

theorem declare_identify_comm_overlapping :
    ∃ before after, (registerAll {} overlapping).Reachable ∧
      ((registerAll {} overlapping).addAlias ⟨⟨"y", ["D", "U"], true⟩, .base "nil", []⟩ >>=
        fun env => env.addModuleAlias ⟨"T", ["B"], true⟩ ⟨"E", [], true⟩) = .ok before ∧
      ((registerAll {} overlapping).addModuleAlias ⟨"T", ["B"], true⟩ ⟨"E", [], true⟩ >>=
        fun env => env.addAlias ⟨⟨"y", ["D", "U"], true⟩, .base "nil", []⟩) = .ok after ∧
      before = after ∧ ⟨"y", ["E", "U"], true⟩ ∈ after.aliasNames := by
  have hway : (registerAll {} overlapping).modules.Throughout
      (PathMatch.StaysLongest ["B", "T"]) ["D", "U"] :=
    .replace (p := ⟨["D"], ["A", "T"], ["U"]⟩) rfl (by decide)
      (.replace (p := ⟨["A"], ["B"], ["T", "U"]⟩) rfl (by decide) (.done rfl))
  have hbefore : ((registerAll {} overlapping).addAlias
      ⟨⟨"y", ["D", "U"], true⟩, .base "nil", []⟩ >>= fun env =>
        env.addModuleAlias ⟨"T", ["B"], true⟩ ⟨"E", [], true⟩) = .ok _ := rfl
  have hafter : ((registerAll {} overlapping).addModuleAlias ⟨"T", ["B"], true⟩
      ⟨"E", [], true⟩ >>= fun env =>
        env.addAlias ⟨⟨"y", ["D", "U"], true⟩, .base "nil", []⟩) = .ok _ := rfl
  have h := (Reachable.empty.registerAll overlapping).declare_identify_comm hbefore hafter
  exact ⟨_, _, Reachable.empty.registerAll _, hbefore, hafter, h.2.2 hway, by decide⟩

/-- When a longer path is registered first, an alias gets another name than the one it moves to when
the path is registered last. -/
theorem declare_identify_below_longer :
    ∃ before after : Environment, (registerAll {} (overlapping.take 1)).Reachable ∧
      ((registerAll {} (overlapping.take 1)).addAlias ⟨⟨"x", ["A", "S"], true⟩, .base "nil", []⟩ >>=
        fun env => env.addModuleAlias ⟨"S", ["A"], true⟩ ⟨"C", [], true⟩) = .ok before ∧
      ((registerAll {} (overlapping.take 1)).addModuleAlias ⟨"S", ["A"], true⟩ ⟨"C", [], true⟩ >>=
        fun env => env.addAlias ⟨⟨"x", ["A", "S"], true⟩, .base "nil", []⟩) = .ok after ∧
      before.aliasNames = [⟨"x", ["B", "S"], true⟩] ∧ after.aliasNames = [⟨"x", ["C"], true⟩] :=
  ⟨_, _, Reachable.empty.registerAll _, rfl, rfl, rfl, rfl⟩

/-! ## Building an environment -/

section Build

variable {modules modules' : List (TypeName × TypeName)} {decls decls' : List AliasDecl}

/-- The entry of a module alias. -/
def moduleEntry (m : TypeName × TypeName) : Path × Path :=
  (m.1.path, m.2.path)

/-- The entry of a declaration that has not moved yet. -/
def declEntry (decl : AliasDecl) : TypeName × AliasDecl :=
  (decl.name.toAbsolute, { decl with name := decl.name.toAbsolute })

theorem addModuleAlias_of_empty (he : env.aliases = ∅) :
    env.addModuleAlias new old = if env.modules.contains new.path then .error (.duplicate new)
      else .ok (env.withModule new old) := by
  unfold addModuleAlias withModule
  rw [he]
  rfl

theorem foldlM_addModuleAlias_eq_ok_iff (he : env.aliases = ∅) :
    modules.foldlM (fun env m => env.addModuleAlias m.1 m.2) env = .ok env' ↔
      env'.aliases = ∅ ∧ env'.modules.entries = env.modules.entries ++ modules.map moduleEntry := by
  induction modules generalizing env with
  | nil =>
    rw [List.foldlM_nil, List.map_nil, List.append_nil]
    constructor
    · intro h
      cases h
      exact ⟨he, rfl⟩
    · rintro ⟨he', hm⟩
      rw [eq_of_entries (show env'.modules = env.modules from Table.ext hm) (by rw [he, he'])]
      rfl
  | cons m modules ih =>
    rw [List.foldlM_cons, List.map_cons, addModuleAlias_of_empty he]
    by_cases hm : m.1.path ∈ env.modules.keys
    · rw [if_pos (Table.contains_iff.mpr hm)]
      constructor
      · intro h
        cases h
      · rintro ⟨-, hentries⟩
        have hnodup := env'.modules.nodup_keys
        rw [hentries, List.map_append, List.nodup_append] at hnodup
        exact absurd rfl (hnodup.2.2 _ hm m.1.path (by simp [moduleEntry]))
    · rw [if_neg fun hc => hm (Table.contains_iff.mp hc)]
      have hrest := ih (show (env.withModule m.1 m.2).aliases = ∅ from he)
      have hentries : (env.withModule m.1 m.2).modules.entries =
          env.modules.entries ++ [moduleEntry m] := Table.entries_insert_of_not_mem hm _
      rw [hentries, List.append_assoc] at hrest
      exact hrest

theorem foldlM_addAlias (decls : List AliasDecl) (env : Environment) :
    decls.foldlM addAlias env = env.redeclare ((decls.map declEntry).map Prod.snd) := by
  induction decls generalizing env with
  | nil => rfl
  | cons decl decls ih =>
    rw [List.foldlM_cons, List.map_cons, List.map_cons, redeclare, addAlias]
    dsimp only [declEntry]
    cases env.rewrite? decl.name.toAbsolute with
    | none => rfl
    | some key =>
      dsimp only
      split
      · rfl
      · exact ih _

/-- An environment is built of some module aliases and declarations just when the former are its
module aliases, and the latter move to its entries. -/
theorem build_eq_ok_iff : build modules decls = .ok env ↔
    env.modules.entries = modules.map moduleEntry ∧
      List.Forall₂ env.Moves (decls.map declEntry) env.aliases.entries := by
  have hnamed : named ((decls.map declEntry).map Prod.snd) = decls.map declEntry := by
    rw [named, List.map_map, List.map_map]
    rfl
  constructor
  · intro h
    obtain ⟨start, hstart, h⟩ := bind_ok h
    obtain ⟨he, hm⟩ := (foldlM_addModuleAlias_eq_ok_iff rfl).mp hstart
    rw [foldlM_addAlias, redeclare_eq_ok_iff, hnamed] at h
    obtain ⟨entries, hmoves, -, hmod, hentries⟩ := h
    rw [he] at hentries
    rw [hmod, hentries, moves_congr hmod]
    exact ⟨hm, hmoves⟩
  · rintro ⟨hm, hmoves⟩
    have hstart : modules.foldlM (fun (env : Environment) m => env.addModuleAlias m.1 m.2) {} =
        .ok { env with aliases := ∅ } :=
      (foldlM_addModuleAlias_eq_ok_iff rfl).mpr ⟨rfl, hm⟩
    have hsame : Moves { env with aliases := ∅ } = env.Moves := moves_congr rfl
    rw [build, hstart]
    show decls.foldlM addAlias { env with aliases := ∅ } = _
    rw [foldlM_addAlias, redeclare_eq_ok_iff, hnamed, hsame]
    exact ⟨env.aliases.entries, hmoves, env.aliases.nodup_keys, rfl, rfl⟩

/-- What is declared in an environment has been given when it was built, and has moved. -/
theorem exists_declared_of_build {key : TypeName} {stored : AliasDecl}
    (h : build modules decls = .ok env) (hkey : env.aliases.get? key = some stored) :
    ∃ decl ∈ decls, env.rewrite? decl.name.toAbsolute = some key ∧
      stored = { decl with name := key } := by
  obtain ⟨-, hmoves⟩ := build_eq_ok_iff.mp h
  obtain ⟨i, hi⟩ := List.mem_iff_get.mp (Table.get?_eq_some_iff.mp hkey)
  have hlength : i.val < (decls.map declEntry).length := by
    rw [hmoves.length_eq]
    exact i.isLt
  have hmove := hmoves.get hlength i.isLt
  obtain ⟨decl, hdecl, he⟩ := List.mem_map.mp (List.get_mem (decls.map declEntry) _)
  rw [← he, hi] at hmove
  exact ⟨decl, hdecl, hmove.key, hmove.decl⟩

/-- Two environments with the same entries, in whatever order. -/
structure Rearranged (env env' : Environment) : Prop where
  aliases : env.aliases.entries.Perm env'.aliases.entries
  modules : env.modules.entries.Perm env'.modules.entries

namespace Rearranged

theorem symm (h : Rearranged env env') : Rearranged env' env :=
  ⟨h.aliases.symm, h.modules.symm⟩

theorem rewrite? (h : Rearranged env env') (name : TypeName) :
    env.rewrite? name = env'.rewrite? name := by
  rw [Environment.rewrite?, Environment.rewrite?, rewrite?_of_perm h.modules]

theorem moves (h : Rearranged env env') : env.Moves = env'.Moves :=
  moves_of_rewrite? (funext h.rewrite?)

/-- A name stands for the same alias. -/
theorem resolve? (h : Rearranged env env') (name : TypeName) (context : Path) :
    env.resolve? name context = env'.resolve? name context := by
  have hcontains : env.aliases.contains = env'.aliases.contains := by
    funext key
    rw [Table.contains, Table.contains, Table.get?_of_perm h.aliases]
  have hdeclared : env.declared? = env'.declared? := by
    funext candidate
    rw [declared?, declared?, h.rewrite?, hcontains]
  rw [Environment.resolve?, Environment.resolve?, hdeclared]

theorem aliasNames (h : Rearranged env env') : env.aliasNames.Perm env'.aliasNames :=
  h.aliases.map Prod.fst

end Rearranged

/-- In whatever order module aliases and declarations are given, the same environment is built of
them, but for the order of its entries. -/
theorem exists_build_perm (h : build modules decls = .ok env) (hm : modules.Perm modules')
    (hd : decls.Perm decls') : ∃ env', build modules' decls' = .ok env' ∧ Rearranged env env' := by
  obtain ⟨hmodules, hmoves⟩ := build_eq_ok_iff.mp h
  have hentries : env.modules.entries.Perm (modules'.map moduleEntry) :=
    hmodules ▸ hm.map moduleEntry
  obtain ⟨entries, hmoves', haliases⟩ :=
    List.perm_comp_forall₂ (hd.symm.map declEntry) hmoves
  have haliasesNodup := (haliases.map Prod.fst).nodup_iff.mpr env.aliases.nodup_keys
  have hmodulesNodup := (hentries.map Prod.fst).nodup_iff.mp env.modules.nodup_keys
  have hsame : Rearranged env
      ⟨⟨entries, haliasesNodup⟩, ⟨modules'.map moduleEntry, hmodulesNodup⟩⟩ :=
    ⟨haliases.symm, hentries⟩
  rw [hsame.moves] at hmoves'
  exact ⟨_, build_eq_ok_iff.mpr ⟨rfl, hmoves'⟩, hsame⟩

end Build

end Environment

end TypeAlias
