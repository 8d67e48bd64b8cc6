import TypeAlias.Proofs.Dependencies.References
import TypeAlias.Proofs.Diagnostics.Circularity

/-!
# What a summary says

What reading a definition, closing an alias and reporting something keep, all inquiries keep. So
whatever has been asked before, a summary tells what is in the environment: the circular aliases,
their cycles, and what dangles in the definitions.
-/

namespace TypeAlias

namespace Stable

open Query

variable {env : Environment} {p : Dependencies → Prop}

theorem keeps_tell (h : Stable env p) (notice : Notice) : Keeps p (Query.tell notice) :=
  fun d hd => h.tell d notice hd

theorem attend (h : Stable env p) (m : Moment TypeName) : Keeps p (Query.attend env m) := by
  unfold Query.attend
  split
  · exact keeps_discard (h.directDependencies _)
  · exact h.keeps_tell _

theorem components (h : Stable env p) : Keeps p (Query.components env) :=
  keeps_bind keeps_get fun _ => keeps_bind (keeps_forM h.attend _) fun _ => keeps_pure _

theorem order (h : Stable env p) : Keeps p (Query.order env) := by
  refine keeps_bind keeps_get fun d => keeps_bind (keeps_forM h.attend _) fun _ => ?_
  cases (d.trace env).order with
  | ok names => exact keeps_pure names
  | error e => exact keeps_bind (h.keeps_tell _) fun _ _ hd => hd

theorem cycleOfComponent (h : Stable env p) (component : List TypeName) :
    Keeps p (Query.cycleOfComponent env component) := by
  cases component with
  | nil => exact keeps_pure none
  | cons head rest => exact keeps_bind (h.directDependencies head) fun _ => keeps_pure _

theorem cycles (h : Stable env p) : Keeps p (Query.cycles env) :=
  keeps_bind h.components fun cs => keeps_filterMapM h.cycleOfComponent cs

theorem dangling (h : Stable env p) : Keeps p (Query.dangling env) :=
  keeps_bind
    (keeps_mapM (fun name => keeps_bind (h.danglingReferences name) fun _ => keeps_pure _) _)
    fun _ => keeps_pure _

theorem circular (h : Stable env p) : Keeps p (Query.circular env) :=
  keeps_filterM h.isCircular _

theorem summary (h : Stable env p) : Keeps p (Query.summary env) :=
  keeps_bind h.circular fun _ => keeps_bind h.cycles fun _ => keeps_bind h.dangling fun _ =>
    keeps_pure _

/-- One inquiry. -/
theorem inquire (h : Stable env p) (i : Inquiry) : Keeps p (i.ask env) := by
  cases i with
  | one q => exact h.ask q
  | components => exact keeps_discard h.components
  | order => exact keeps_discard h.order
  | cycles => exact keeps_discard h.cycles
  | dangling => exact keeps_discard h.dangling
  | circular => exact keeps_discard h.circular
  | summary => exact keeps_discard h.summary

/-- Any number of inquiries, in any order. -/
theorem inquireAll (h : Stable env p) (history : List Inquiry) {d : Dependencies} (hd : p d) :
    p (Inquiry.askAll env history d) := by
  induction history generalizing d with
  | nil => exact hd
  | cons i history ih => exact ih (h.inquire i d hd)

end Stable

namespace Environment

open Dependencies in
/-- Whatever has been asked, what is known is right. -/
theorem known_askAll {env : Environment} (he : env.WellKeyed) (guarded : Bool)
    (history : List Inquiry) :
    Known env guarded (Inquiry.askAll env history { guarded := guarded }) :=
  (Known.stable he guarded).inquireAll history (Known.initial env guarded)

/-- The references that dangle, with the aliases that make them, in order of declaration. -/
def dangling (env : Environment) (guarded : Bool) : List DanglingReference :=
  env.aliasNames.flatMap fun n => (env.danglingOf guarded n).map fun ref => ⟨n, ref⟩

end Environment

namespace Query

open Dependencies

variable {env : Environment} {guarded : Bool}

theorem returns_dangling_eq (he : env.WellKeyed) :
    Returns (Known env guarded) (dangling env) (· = env.dangling guarded) := by
  have hfound : ∀ n ∈ env.aliasNames, Returns (Known env guarded)
      (do return (← danglingReferences env n).map fun ref => (⟨n, ref⟩ : DanglingReference))
      (· = (env.danglingOf guarded n).map fun ref => ⟨n, ref⟩) := by
    intro n hn
    have hrefs : Returns (Known env guarded) (danglingReferences env n)
        (· = env.danglingOf guarded n) :=
      Keeps.returns ((Known.stable he guarded).danglingReferences n) fun _ hd =>
        ⟨_, hd.2.danglingReferences he hn, rfl⟩
    apply hrefs.bind
    rintro _ rfl
    exact returns_pure rfl
  apply (returns_mapM_map hfound).bind
  rintro _ rfl
  exact returns_pure (List.flatMap_def ..).symm

/-- A summary tells what is in the environment. -/
theorem returns_summary_eq (he : env.WellKeyed) :
    Returns (Known env guarded) (summary env)
      (· = ⟨env.size, env.circular guarded, env.cycles guarded, env.dangling guarded⟩) := by
  have hread := ReadIn.stable he guarded
  apply ((returns_circular he).and hread.circular).bind
  rintro _ rfl
  apply ((returns_cycles he).and hread.cycles).bind
  rintro _ rfl
  apply (returns_dangling_eq he).bind
  rintro _ rfl
  exact returns_pure rfl

end Query

end TypeAlias
