import Mathlib.Data.List.Induction
import TypeAlias.Proofs.Dependencies.References
import TypeAlias.Proofs.Environment.Rewriting

/-!
# What a relative name means in two spellings of a context

A relative name is looked up from the inside to the outside of its context. When the context is
rewritten, the namespaces inside the module that a module alias stands for correspond to those
inside its second path; but around the two there may be other modules. A definition is read in the
namespace of its canonical name, so its references mean what they would mean where it was written as
long as no replacement on the way makes a difference to them.
-/

namespace TypeAlias.Environment

open ModuleAliases

variable {env : Environment} {name : TypeName} {context canonical source target rest : Path}

theorem candidates_concat (hr : name.absolute = false) (context : Path) (a : String) :
    candidates name (context ++ [a]) =
      name.inScope (context ++ [a] ++ name.scope) :: candidates name context := by
  have houter : ∀ n ∈ (List.range (context.length + 1)).reverse,
      name.inScope ((context ++ [a]).take n ++ name.scope) =
        name.inScope (context.take n ++ name.scope) := by
    intro n hn
    rw [List.mem_reverse, List.mem_range] at hn
    rw [List.take_append_of_le_length (Nat.le_of_lt_succ hn)]
  have hlen : (context ++ [a]).length = context.length + 1 := by simp
  have habs : ¬ name.absolute = true := by simp [hr]
  rw [candidates, candidates, if_neg habs, if_neg habs, hlen, List.range_succ, List.reverse_append,
    List.reverse_singleton, List.singleton_append, List.map_cons, List.map_congr_left houter,
    List.take_of_length_le (Nat.le_of_eq hlen)]

theorem resolve?_concat (hr : name.absolute = false) (context : Path) (a : String) :
    env.resolve? name (context ++ [a]) =
      (env.declared? (name.inScope (context ++ [a] ++ name.scope))).or
        (env.resolve? name context) := by
  rw [resolve?, candidates_concat hr, List.findSome?_cons, resolve?]
  cases env.declared? (name.inScope (context ++ [a] ++ name.scope)) <;> rfl

/-- A relative name is looked up in its context, and then around it. -/
theorem resolve?_dropLast (hr : name.absolute = false) (context : Path) :
    env.resolve? name context =
      (env.declared? (name.inScope (context ++ name.scope))).or
        (env.resolve? name context.dropLast) := by
  rcases List.eq_nil_or_concat context with rfl | ⟨outer, a, rfl⟩
  · have htop : env.resolve? name [] = env.declared? (name.inScope name.scope) := by
      simp [resolve?, candidates, hr]
    rw [List.dropLast_nil, htop, List.nil_append, Option.or_self]
  · rw [List.concat_eq_append, List.dropLast_concat, resolve?_concat hr]

/-- In two contexts with the same end, a relative name means the same when it means the same in the
namespaces in that end, and either it is declared in one of them or it means the same around. -/
theorem resolve?_append_congr (hr : name.absolute = false)
    (hinside : ∀ s, s <+: rest → env.declared? (name.inScope (source ++ s ++ name.scope)) =
      env.declared? (name.inScope (target ++ s ++ name.scope)))
    (haround : (∃ s, s <+: rest ∧ env.declared? (name.inScope (target ++ s ++ name.scope)) ≠ none) ∨
      env.resolve? name source.dropLast = env.resolve? name target.dropLast) :
    env.resolve? name (source ++ rest) = env.resolve? name (target ++ rest) := by
  induction rest using List.reverseRecOn with
  | nil =>
    have hboth := hinside [] List.prefix_rfl
    rw [List.append_nil, List.append_nil] at hboth
    rw [List.append_nil, List.append_nil, resolve?_dropLast hr source, resolve?_dropLast hr target,
      hboth]
    rcases haround with ⟨s, hs, hdeclared⟩ | haround
    · rw [List.prefix_nil.mp hs, List.append_nil] at hdeclared
      obtain ⟨key, hkey⟩ := Option.ne_none_iff_exists'.mp hdeclared
      rw [hkey, Option.some_or, Option.some_or]
    · rw [haround]
  | append_singleton rest a ih =>
    have hboth := hinside _ List.prefix_rfl
    rw [← List.append_assoc, ← List.append_assoc] at hboth ⊢
    rw [resolve?_concat hr, resolve?_concat hr, hboth]
    cases hdeclared : env.declared? (name.inScope (target ++ rest ++ [a] ++ name.scope)) with
    | some key => rw [Option.some_or, Option.some_or]
    | none =>
      rw [Option.none_or, Option.none_or]
      refine ih (fun s hs => hinside s (hs.trans (List.prefix_append _ _))) (haround.imp_left ?_)
      rintro ⟨s, hs, hne⟩
      rcases List.prefix_concat_iff.mp hs with rfl | hs
      · rw [← List.append_assoc] at hne
        exact absurd hdeclared hne
      · exact ⟨s, hs, hne⟩

/-- A replacement in a context does not matter to a relative name. -/
structure Neutral (env : Environment) (name : TypeName) (p : PathMatch) : Prop where
  /-- With the name inside, no longer registered path comes before the one that is replaced. -/
  longest : ∀ s, s <+: p.rest → ∀ path ∈ env.modules.keys,
    path <+: p.source ++ s ++ name.scope → path.length ≤ p.source.length
  /-- Rewriting it does not run in a circle. -/
  ends : ∀ s, s <+: p.rest → env.modules.rewrite? (p.source ++ s ++ name.scope) ≠ none
  /-- It is declared inside, or means the same around both modules. -/
  around : (∃ s, s <+: p.rest ∧
      env.declared? (name.inScope (p.target ++ s ++ name.scope)) ≠ none) ∨
    env.resolve? name p.source.dropLast = env.resolve? name p.target.dropLast

/-- One replacement. -/
theorem resolve?_replaced {p : PathMatch} (hr : name.absolute = false)
    (hp : env.modules.longest? (p.source ++ p.rest) = some p) (hn : env.Neutral name p) :
    env.resolve? name (p.source ++ p.rest) = env.resolve? name (p.target ++ p.rest) := by
  obtain ⟨hne, htarget, -, -⟩ := longest?_eq_some_iff.mp hp
  apply resolve?_append_congr hr ?_ hn.around
  intro s hs
  have hlongest := hn.longest s hs
  have hends := hn.ends s hs
  rw [List.append_assoc] at hlongest hends ⊢
  rw [List.append_assoc]
  exact declared?_replaced (n := ⟨p.source, p.target, s ++ name.scope⟩)
    (longest?_eq_some_iff.mpr ⟨hne, htarget, rfl, hlongest⟩) hends

/-- Any number of replacements. -/
theorem resolve?_rewritten (hr : name.absolute = false)
    (hc : env.modules.Throughout (env.Neutral name) context)
    (hw : env.modules.rewrite? context = some canonical) :
    env.resolve? name context = env.resolve? name canonical :=
  hc.keeps (P := fun stop => env.resolve? name context = env.resolve? name stop) hw
    (fun _ hp hn h => h.trans (resolve?_replaced hr hp hn)) rfl

/-- A relative name means the same in the written namespace as in the canonical one when no
replacement on the way matters to it. So when none matters to the references of a declared alias,
it depends on what they mean where it was written, and those dangle that dangle there. -/
theorem Reachable.resolve?_canonical (h : env.Reachable)
    (hw : env.modules.rewrite? context = some canonical) :
    (∀ name : TypeName, name.absolute = false →
      env.modules.Throughout (env.Neutral name) context →
      env.resolve? name context = env.resolve? name canonical) ∧
    ∀ decl : AliasDecl, decl.context = context →
      env.aliases.get? (decl.name.inScope canonical) =
        some { decl with name := decl.name.inScope canonical } →
      (∀ t ∈ decl.type.preorder, ∀ name, t.reference? = some name → name.absolute = false →
        env.modules.Throughout (env.Neutral name) context) →
      ∀ guarded history,
        ((Query.directDependencies env (decl.name.inScope canonical)).answer
          (Question.askAll env history { guarded := guarded })).1 =
            .ok (Reading.ofDecl env guarded decl).found ∧
        ((Query.danglingReferences env (decl.name.inScope canonical)).answer
          (Question.askAll env history { guarded := guarded })).1 =
            .ok (Reading.ofDecl env guarded decl).dangling := by
  have hname {name : TypeName} (hr : name.absolute = false)
      (hc : env.modules.Throughout (env.Neutral name) context) :=
    resolve?_rewritten hr hc hw
  refine ⟨fun _ => hname, fun decl hcontext hstored hc guarded history => ?_⟩
  have he := h.wellKeyed
  have hmem : decl.name.inScope canonical ∈ env.aliasNames :=
    mem_aliasNames_iff.mpr ⟨_, hstored⟩
  -- Where the definition is read, its references mean what they mean where it was written.
  have hmatches :
      (Reading.ofDecl env guarded { decl with name := decl.name.inScope canonical }).Matches
        (Reading.ofDecl env guarded decl) := by
    refine Reading.matches_ofDecl rfl fun t ht name href => ?_
    rw [hcontext]
    show env.resolve? name canonical = _
    cases habs : name.absolute with
    | true => rw [resolve?_of_absolute habs, resolve?_of_absolute habs]
    | false => exact (hname habs (hc t ht name href habs)).symm
  obtain ⟨hsettled, hread⟩ := (Dependencies.Known.stable he guarded).askAll history
    (Dependencies.Known.initial env guarded)
  constructor
  · rw [(hsettled.tellsReach he hmem).directDependencies, dependencyGraph]
    dsimp only
    rw [hstored]
    exact congrArg Except.ok hmatches.found
  · rw [hread.danglingReferences he hmem, danglingOf, hstored]
    exact congrArg Except.ok hmatches.dangling

/-- A module with a second path, and below it a longer path and one that leads back to it. -/
def surrounded : List Registration :=
  [.identify ⟨"K2", [], true⟩ ⟨"Deep", ["K"], true⟩, .identify ⟨"S", ["K2"], true⟩ ⟨"C", [], true⟩,
    .identify ⟨"N", ["K", "Deep"], true⟩ ⟨"K2", [], true⟩,
    .declare ⟨⟨"bar", [], true⟩, .base "nil", []⟩, .declare ⟨⟨"bar", ["K"], true⟩, .base "nil", []⟩,
    .declare ⟨⟨"foo", ["K2"], true⟩, .aliasInstance ⟨"bar", [], false⟩ [], []⟩,
    .declare ⟨⟨"foo", ["C"], true⟩, .base "nil", []⟩,
    .declare ⟨⟨"foo", ["K", "Deep", "S"], true⟩, .base "nil", []⟩,
    .declare ⟨⟨"baz", ["K2", "In"], true⟩, .union [.aliasInstance ⟨"foo", [], false⟩ [],
      .aliasInstance ⟨"zap", [], false⟩ []], []⟩]

theorem resolve?_canonical_surrounded :
    (registerAll {} surrounded).Reachable ∧
      (registerAll {} surrounded).resolve? ⟨"foo", [], false⟩ ["K2", "In"] =
        (registerAll {} surrounded).resolve? ⟨"foo", [], false⟩ ["K", "Deep", "In"] ∧
      ((Query.directDependencies (registerAll {} surrounded)
        ⟨"baz", ["K", "Deep", "In"], true⟩).answer (Question.askAll (registerAll {} surrounded)
          [.isCircular (.text "K2::In::baz")] { guarded := true })).1 =
        .ok [⟨"foo", ["K", "Deep"], true⟩] ∧
      ((Query.danglingReferences (registerAll {} surrounded)
        ⟨"baz", ["K", "Deep", "In"], true⟩).answer (Question.askAll (registerAll {} surrounded)
          [.isCircular (.text "K2::In::baz")] { guarded := true })).1 =
        .ok [⟨"zap", [], false⟩] := by
  have hneutral : ∀ x ∈ ["foo", "zap"], (registerAll {} surrounded).modules.Throughout
      ((registerAll {} surrounded).Neutral ⟨x, [], false⟩) ["K2", "In"] := by
    intro x hx
    refine .replace (p := ⟨["K2"], ["K", "Deep"], ["In"]⟩) rfl ?_ (.done rfl)
    constructor <;> simp only [← List.mem_inits] <;> revert x <;> decide
  have hw : (registerAll {} surrounded).modules.rewrite? ["K2", "In"] =
      some ["K", "Deep", "In"] := rfl
  obtain ⟨hname, hdecl⟩ := (Reachable.empty.registerAll surrounded).resolve?_canonical hw
  obtain ⟨hdirect, hdangling⟩ := hdecl ⟨⟨"baz", ["K2", "In"], true⟩,
    .union [.aliasInstance ⟨"foo", [], false⟩ [], .aliasInstance ⟨"zap", [], false⟩ []], []⟩ rfl rfl
    (by
      intro t ht name href _
      simp only [TypeExpr.preorder_eq, TypeExpr.children, List.flatMap_cons, List.flatMap_nil,
        List.append_nil, List.cons_append, List.nil_append, List.mem_cons, List.not_mem_nil,
        or_false] at ht
      rcases ht with rfl | rfl | rfl
      · cases href
      · cases href
        exact hneutral "foo" (by decide)
      · cases href
        exact hneutral "zap" (by decide))
    true [.isCircular (.text "K2::In::baz")]
  refine ⟨Reachable.empty.registerAll _, hname _ rfl (hneutral "foo" (by decide)),
    hdirect.trans ?_, hdangling.trans ?_⟩
  · decide +kernel
  · decide +kernel

/-- Another alias is meant where the module around declares the name, where a longer path takes part
in it, and where the name runs in a circle; and a definition is read from its canonical name. -/
theorem resolve?_differs_surrounded :
    (registerAll {} surrounded).Reachable ∧
      (registerAll {} surrounded).modules.rewrite? ["K2"] = some ["K", "Deep"] ∧
      ((registerAll {} surrounded).resolve? ⟨"bar", [], false⟩ ["K2"] = some ⟨"bar", [], true⟩ ∧
        (registerAll {} surrounded).resolve? ⟨"bar", [], false⟩ ["K", "Deep"] =
          some ⟨"bar", ["K"], true⟩) ∧
      ((registerAll {} surrounded).resolve? ⟨"foo", ["S"], false⟩ ["K2"] =
          some ⟨"foo", ["C"], true⟩ ∧
        (registerAll {} surrounded).resolve? ⟨"foo", ["S"], false⟩ ["K", "Deep"] =
          some ⟨"foo", ["K", "Deep", "S"], true⟩) ∧
      ((registerAll {} surrounded).resolve? ⟨"foo", ["N"], false⟩ ["K2"] = none ∧
        (registerAll {} surrounded).resolve? ⟨"foo", ["N"], false⟩ ["K", "Deep"] =
          some ⟨"foo", ["K", "Deep"], true⟩) ∧
      (registerAll {} surrounded).aliases.get? ⟨"foo", ["K", "Deep"], true⟩ =
        some ⟨⟨"foo", ["K", "Deep"], true⟩, .aliasInstance ⟨"bar", [], false⟩ [], []⟩ ∧
      ((Query.directDependencies (registerAll {} surrounded)
        ⟨"foo", ["K", "Deep"], true⟩).answer {}).1 = .ok [⟨"bar", ["K"], true⟩] :=
  ⟨Reachable.empty.registerAll _, rfl, ⟨rfl, rfl⟩, ⟨rfl, rfl⟩, ⟨rfl, rfl⟩, rfl, by decide +kernel⟩

end TypeAlias.Environment
