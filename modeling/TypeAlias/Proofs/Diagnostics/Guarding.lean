import TypeAlias.Proofs.Dependencies.Mentions
import TypeAlias.Proofs.Diagnostics.Inquiries

/-!
# Guarded recursion only removes dependencies

When recursion may be guarded, a definition is read in the same way, except that a reference below a
guarding expression makes no dependency. So there are fewer dependencies, and fewer aliases within
reach; what is circular then is circular anyway, what can be put in order anyway can be put in order
then, and the same references dangle.
-/

namespace TypeAlias

namespace Reading

/-- No more dependencies have been found, and the same dangles. -/
structure Narrower (r r' : Reading) : Prop where
  found : r.found ⊆ r'.found
  dangling : r.dangling = r'.dangling

/-- The mentions that count when recursion may be guarded count anyway. -/
theorem narrower_ofDecl (env : Environment) (guarded : Bool) (decl : AliasDecl) :
    (ofDecl env guarded decl).Narrower (ofDecl env false decl) := by
  have h := comesFrom_ofDecl env guarded decl
  have h' := comesFrom_ofDecl env false decl
  constructor
  case found =>
    intro a
    rw [h.found, h'.found, List.mem_eraseDups, List.mem_eraseDups, targets, targets]
    apply (List.Sublist.filterMap _ _).subset
    exact List.monotone_filter_right _ fun _ _ => rfl
  case dangling => rw [h.dangling, h'.dangling]

end Reading

namespace Environment

variable {env : Environment} {guarded : Bool} {n m : TypeName}

theorem edge_of_guarded (h : (env.dependencyGraph guarded).Edge n m) :
    (env.dependencyGraph false).Edge n m := by
  unfold dependencyGraph Digraph.Edge at h ⊢
  dsimp only at h ⊢
  cases hdecl : env.aliases.get? n with
  | none =>
    rw [hdecl] at h
    exact h
  | some decl =>
    rw [hdecl] at h
    exact (Reading.narrower_ofDecl env guarded decl).found h

theorem leadsTo_of_guarded (h : (env.dependencyGraph guarded).LeadsTo n m) :
    (env.dependencyGraph false).LeadsTo n m :=
  Relation.TransGen.mono (fun _ _ => edge_of_guarded) _ _ h

theorem danglingOf_guarded (env : Environment) (guarded : Bool) (n : TypeName) :
    env.danglingOf guarded n = env.danglingOf false n := by
  unfold danglingOf
  cases env.aliases.get? n with
  | none => rfl
  | some decl => exact (Reading.narrower_ofDecl env guarded decl).dangling

/-- Without cycles there are none that need no guard. -/
theorem cycles_eq_nil_of_unguarded (he : env.WellKeyed) (h : env.cycles false = []) :
    env.cycles guarded = [] := by
  rw [← circular_eq_nil_iff he, List.eq_nil_iff_forall_not_mem] at h ⊢
  intro n hn
  obtain ⟨hname, hself⟩ := mem_circular_iff.mp hn
  exact h n (mem_circular_iff.mpr ⟨hname, leadsTo_of_guarded hself⟩)

end Environment

namespace Query

/-- A query is answered on what is known in two ways, and the answers stand in a relation. -/
def Compares {α : Type} (q : Query α) (rel : α → α → Prop) (d d' : Dependencies) : Prop :=
  ∃ a a', (q.answer d).1 = .ok a ∧ (q.answer d').1 = .ok a' ∧ rel a a'

/-- What is answered about an alias on what is known in one way is part of what is answered on what
is known in another; and the same dangles. -/
structure Narrows (env : Environment) (d d' : Dependencies) (n : TypeName) : Prop where
  directDependencies : (directDependencies env n).Compares (· ⊆ ·) d d'
  dependencies : (dependencies env n).Compares (· ⊆ ·) d d'
  isCircular : (isCircular env n).Compares (· = true → · = true) d d'
  cycle : (cycle env n).Compares (· ⊆ ·) d d'
  danglingReferences : (danglingReferences env n).Compares (· = ·) d d'

end Query

namespace Environment

open Dependencies

variable {env : Environment} {d d' : Dependencies} {n : TypeName}

theorem narrows_of_known (he : env.WellKeyed) (hn : n ∈ env.aliasNames)
    (h : Known env true d) (h' : Known env false d') : Query.Narrows env d d' n := by
  have htells := h.1.tellsReach he hn
  have htells' := h'.1.tellsReach he hn
  constructor
  case directDependencies =>
    exact ⟨_, _, htells.directDependencies, htells'.directDependencies,
      fun _ => edge_of_guarded⟩
  case dependencies =>
    obtain ⟨deps, hq, -, hdeps⟩ := htells.dependencies
    obtain ⟨deps', hq', -, hdeps'⟩ := htells'.dependencies
    exact ⟨deps, deps', hq, hq', fun m hm =>
      (hdeps' m).mpr (leadsTo_of_guarded ((hdeps m).mp hm))⟩
  case isCircular =>
    obtain ⟨b, hq, hb⟩ := htells.isCircular
    obtain ⟨b', hq', hb'⟩ := htells'.isCircular
    exact ⟨b, b', hq, hq', fun h => hb'.mpr (leadsTo_of_guarded (hb.mp h))⟩
  case cycle =>
    obtain ⟨c, hq, -, hcirc, hnone⟩ := htells.cycle
    obtain ⟨c', hq', -, hcirc', -⟩ := htells'.cycle
    refine ⟨c, c', hq, hq', fun m hm => ?_⟩
    by_cases hself : (env.dependencyGraph true).LeadsTo n n
    · rw [hcirc' (leadsTo_of_guarded hself)]
      obtain ⟨hnm, hmn⟩ := (hcirc hself m).mp hm
      exact ⟨leadsTo_of_guarded hnm, leadsTo_of_guarded hmn⟩
    · rw [hnone hself] at hm
      exact absurd hm List.not_mem_nil
  case danglingReferences =>
    exact ⟨_, _, h.2.danglingReferences he hn, h'.2.danglingReferences he hn,
      env.danglingOf_guarded true n⟩

/-- There is an order just when there are no cycles. -/
theorem exists_order_iff (he : env.WellKeyed) {guarded : Bool} (h : Known env guarded d) :
    (∃ names, ((Query.order env).answer d).1 = .ok names) ↔ env.cycles guarded = [] := by
  have horder := (h.1.agree he).order
  cases hc : env.cycles guarded with
  | nil =>
    rw [hc] at horder
    exact iff_of_true horder rfl
  | cons c cs =>
    rw [hc] at horder
    constructor
    · rintro ⟨names, hnames⟩
      rw [hnames] at horder
      cases horder
    · intro hnone
      cases hnone

/-- Whatever has been asked before, guarded recursion leaves out dependencies of a declared alias
and adds none; and when there is an order without it, there is one with it. -/
theorem Reachable.guarding_narrows (h : env.Reachable) (history history' : List Inquiry) :
    (∀ n ∈ env.aliasNames, Query.Narrows env
      (Inquiry.askAll env history { guarded := true })
      (Inquiry.askAll env history' { guarded := false }) n) ∧
    ((∃ names, ((Query.order env).answer
        (Inquiry.askAll env history' { guarded := false })).1 = .ok names) →
      ∃ names, ((Query.order env).answer
        (Inquiry.askAll env history { guarded := true })).1 = .ok names) := by
  have he := h.wellKeyed
  have hknown := known_askAll he true history
  have hknown' := known_askAll he false history'
  refine ⟨fun n hn => narrows_of_known he hn hknown hknown', ?_⟩
  rw [exists_order_iff he hknown, exists_order_iff he hknown']
  exact cycles_eq_nil_of_unguarded he

/-- An alias that refers to itself below a guard only, and one that refers to nothing that is
declared. -/
def productive : List Registration :=
  [.declare ⟨⟨"json", [], true⟩, .union [.classInstance ⟨"Array", [], true⟩
      [.aliasInstance ⟨"json", [], false⟩ []], .aliasInstance ⟨"scalar", [], false⟩ []], []⟩,
    .declare ⟨⟨"scalar", [], true⟩, .tuple [.aliasInstance ⟨"lost", [], false⟩ []], []⟩]

/-- An alias that refers to nothing, one that refers to it, and one that refers to both of them, to
the second one below a guard. -/
def layered : List Registration :=
  [.declare ⟨⟨"blank", [], true⟩, .base "nil", []⟩,
    .declare ⟨⟨"line", [], true⟩, .optional (.aliasInstance ⟨"blank", [], false⟩ []), []⟩,
    .declare ⟨⟨"page", [], true⟩, .union [.aliasInstance ⟨"blank", [], false⟩ [],
      .tuple [.aliasInstance ⟨"line", [], false⟩ []]], []⟩]

theorem guarding_narrows_productive :
    (registerAll {} productive).Reachable ∧
      ⟨"json", [], true⟩ ∈ (registerAll {} productive).aliasNames ∧
      Query.Narrows (registerAll {} productive)
        (Inquiry.askAll (registerAll {} productive) [.one (.cycle (.text "json")), .order]
          { guarded := true })
        (Inquiry.askAll (registerAll {} productive) [.summary] { guarded := false })
        ⟨"json", [], true⟩ ∧
      (((registerAll {} layered).dependencyGraph false).succ ⟨"page", [], true⟩ =
          [⟨"blank", [], true⟩, ⟨"line", [], true⟩] ∧
        ((registerAll {} layered).dependencyGraph true).succ ⟨"page", [], true⟩ =
          [⟨"blank", [], true⟩]) ∧
      (∃ names, ((Query.order (registerAll {} layered)).answer
        { guarded := false }).1 = .ok names) ∧
      ∃ names, ((Query.order (registerAll {} layered)).answer
        { guarded := true }).1 = .ok names := by
  have h : (registerAll {} productive).Reachable := Reachable.empty.registerAll _
  have hmem : ⟨"json", [], true⟩ ∈ (registerAll {} productive).aliasNames := by decide
  have h' : (registerAll {} layered).Reachable := Reachable.empty.registerAll _
  have hnone : (registerAll {} layered).cycles false = [] := by
    apply cycles_eq_nil_of_rank h'.wellKeyed (registerAll {} layered).aliasNames.idxOf
    decide +kernel
  have horder := (exists_order_iff h'.wellKeyed (Known.initial _ false)).mpr hnone
  exact ⟨h, hmem, (h.guarding_narrows _ _).1 _ hmem, by decide +kernel, horder,
    (h'.guarding_narrows [] []).2 horder⟩

end Environment

end TypeAlias
