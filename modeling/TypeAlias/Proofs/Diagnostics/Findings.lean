import TypeAlias.Analysis
import TypeAlias.Proofs.Access
import TypeAlias.Proofs.Diagnostics.Inquiries

/-!
# What an analysis finds

What an analysis finds is decided by the environment it has loaded, by the kind of recursion and by
whether it is strict. So it makes no difference whether all aliases are closed beforehand or one by
one when the diagnosis comes to them.
-/

namespace TypeAlias

open Dependencies Definitions Files

namespace Environment

/-- Everything there is to say about the aliases. -/
noncomputable def summary (env : Environment) (guarded : Bool) : Summary :=
  ⟨env.size, env.circular guarded, env.cycles guarded, env.dangling guarded⟩

/-- The order of the aliases. When a cycle is in the way, there is none if that may be. -/
def orderFor (env : Environment) (guarded strict : Bool) :
    Except QueryError (Option (List TypeName)) :=
  match env.order guarded, strict with
  | .ok names, _ => .ok (some names)
  | .error _, false => .ok none
  | .error e, true => .error (.cyclic e)

/-- What an analysis finds. -/
noncomputable def findings (env : Environment) (guarded strict : Bool) :
    Except QueryError Report :=
  (env.orderFor guarded strict).map fun order => { env.summary guarded with order }

end Environment

namespace Analysis

variable {env : Environment} {guarded : Bool} {p : Dependencies → Prop} {α : Type}
  {question : Environment → Query α}

/-- What has been loaded is an environment, and what is kept has a property. -/
def Holding (env : Environment) (p : Dependencies → Prop) (s : AnalysisState) : Prop :=
  s.session.env = env ∧ p s.session.deps

theorem run_ask {s : AnalysisState} {r : Except QueryError α} {d : Dependencies}
    (h : (question s.session.env).answer s.session.deps = (r, d)) :
    (ask question).run.run s =
      (r.mapError .query, { s with session := { s.session with deps := d } }) := by
  have hs : s.session.ask question = (r, { s.session with deps := d }) := by
    rw [Session.ask, h]
  unfold ask
  rw [run_bind, run_get]
  dsimp only
  rw [hs]
  cases r <;> rfl

theorem comesTo_ask {r : Except QueryError α} (h : ComesTo p (question env) r) :
    ComesTo (Holding env p) (ask question) (r.mapError .query) := by
  rw [comesTo_iff] at h ⊢
  rintro s ⟨rfl, hs⟩
  obtain ⟨d, hq, hd⟩ := h s.session.deps hs
  exact ⟨_, run_ask hq, rfl, hd⟩

theorem returns_ask {result : α → Prop} (h : Returns p (question env) result) :
    Returns (Holding env p) (ask question) result := by
  rintro s ⟨rfl, hs⟩
  obtain ⟨a, d, hq, ha, hd⟩ := h s.session.deps hs
  exact ⟨a, _, run_ask hq, ha, rfl, hd⟩

theorem returns_ask_tell (he : env.WellKeyed) (notice : Notice) :
    Returns (Holding env (Known env guarded)) (ask fun _ => Query.tell notice) fun _ => True :=
  returns_ask (returns_modify fun d => (Known.stable he guarded).tell d notice)

theorem returns_advance (stage : Stage) (current total : Nat) :
    Returns (Holding env p) (advance stage current total) fun _ => True :=
  returns_modify fun _ hs => hs

/-- Only a strict analysis fails when a cycle is in the way. -/
theorem comesTo_order (he : env.WellKeyed) (strict : Bool) (n : Nat) :
    ComesTo (Holding env (Known env guarded)) (order strict n)
      ((env.orderFor guarded strict).mapError .query) := by
  have hask : ComesTo (Holding env (Known env guarded)) (ask Query.order)
      (((env.order guarded).mapError QueryError.cyclic).mapError .query) :=
    comesTo_ask ((Query.comesTo_order he).and (ReadIn.stable he guarded).order)
  unfold order Environment.orderFor
  rw [← bind_pure_comp]
  cases ho : env.order guarded with
  | ok names =>
    rw [ho] at hask
    apply Returns.tryCatch
    apply Returns.bind hask
    rintro _ rfl
    exact returns_pure rfl
  | error e =>
    rw [ho] at hask
    have hfails := Fails.bind hask fun names => pure (some names)
    cases strict with
    | false =>
      apply hfails.tryCatch_returns
      exact (returns_ask_tell he _).bind fun _ _ => returns_pure rfl
    | true => exact hfails.tryCatch_fails (fails_throw _)

/-- Closes all aliases if the analysis is eager. -/
def close (o : AnalysisOptions) : Analysis Unit := do
  if o.eager then
    advance .closing 0 1
    ask Query.closeAll
    advance .closing 1 1

/-- Finds out what there is to say about the session. -/
def summarize : Analysis Summary := do
  let total := (← get).session.env.size
  advance .diagnosing 0 total
  let summary ← ask Query.summary
  advance .diagnosing total total
  return summary

/-- Completes a report with the order of the aliases. -/
def conclude (o : AnalysisOptions) (summary : Summary) : Analysis Report := do
  let order ← order o.strict summary.cycles.length
  ask fun _ =>
    Query.tell (.analyzed summary.aliases summary.circular.length summary.dangling.length)
  return { summary with order }

/-- What an analysis does once its definitions are loaded. -/
def diagnose (o : AnalysisOptions) : Analysis Report := do
  close o
  conclude o (← summarize)

theorem report_eq (o : AnalysisOptions) (state : FileState) :
    report o state = (do
      advance .loading 0 1
      load o state
      advance .loading 1 1
      diagnose o) := by
  unfold report diagnose close summarize conclude
  cases o.eager <;> simp only [bind_assoc, pure_bind, if_true, Bool.false_eq_true, if_false]

/-- Closing the aliases teaches nothing but what would be found out anyway. -/
theorem returns_close (he : env.WellKeyed) (o : AnalysisOptions) :
    Returns (Holding env (Known env guarded)) (close o) fun _ => True := by
  unfold close
  split
  · have hclose := (Query.returns_closeAll env guarded).and (ReadIn.stable he guarded).closeAll
    apply (returns_advance _ _ _).bind
    intro _ _
    apply (returns_ask hclose).bind
    exact fun _ _ => returns_advance _ _ _
  · exact returns_pure trivial

theorem returns_summarize (he : env.WellKeyed) :
    Returns (Holding env (Known env guarded)) summarize (· = env.summary guarded) := by
  apply returns_get.bind
  intro _ _
  apply (returns_advance _ _ _).bind
  intro _ _
  apply (returns_ask (Query.returns_summary_eq he)).bind
  rintro _ rfl
  exact (returns_advance _ _ _).bind fun _ _ => returns_pure rfl

theorem comesTo_conclude (he : env.WellKeyed) (o : AnalysisOptions) :
    ComesTo (Holding env (Known env guarded)) (conclude o (env.summary guarded))
      ((env.findings guarded o.strict).mapError .query) := by
  have horder : ComesTo (Holding env (Known env guarded))
      (order o.strict (env.summary guarded).cycles.length)
      ((env.orderFor guarded o.strict).mapError .query) := comesTo_order he _ _
  unfold conclude Environment.findings
  cases ho : env.orderFor guarded o.strict with
  | error e =>
    rw [ho] at horder
    exact Fails.bind horder _
  | ok names =>
    rw [ho] at horder
    apply Returns.bind horder
    rintro _ rfl
    exact (returns_ask_tell he _).bind fun _ _ => returns_pure rfl

theorem comesTo_diagnose (he : env.WellKeyed) (o : AnalysisOptions) :
    ComesTo (Holding env (Known env guarded)) (diagnose o)
      ((env.findings guarded o.strict).mapError .query) := by
  apply (returns_close he o).bind_comesTo
  intro _ _
  apply (returns_summarize he).bind_comesTo
  rintro _ rfl
  exact comesTo_conclude he o

/-- Definitions that can be used come to an environment of which nothing is known. -/
theorem holding_ofFile {l : Location} {state : FileState} {session : Session}
    (h : Session.ofFile guarded l state = .ok session) :
    session.env.WellKeyed ∧ Known session.env guarded session.deps := by
  obtain ⟨document, -, h⟩ := bind_ok h
  obtain ⟨s, hs, h⟩ := bind_ok h
  unfold Session.ofDocument at hs
  cases hb : document.toEnvironment with
  | error e =>
    rw [hb] at hs
    cases hs
  | ok env =>
    rw [hb] at hs
    cases hs
    cases h
    have he := (Environment.reachable_build hb).wellKeyed
    exact ⟨he, (Known.stable he guarded).tell _ _ (Known.initial env guarded)⟩

/-- What an analysis comes to when its definitions are loaded first. -/
theorem outcome_report (o : AnalysisOptions) (state : FileState) :
    (report o state).outcome.1 =
      match Session.ofFile o.guarded o.location state with
      | .error e => .error (.load e)
      | .ok session => (session.env.findings o.guarded o.strict).mapError .query := by
  rw [report_eq, outcome]
  cases h : Session.ofFile o.guarded o.location state with
  | error e =>
    have hl : load o state = throw (.load e) := by rw [load, h]
    rw [hl]
    rfl
  | ok session =>
    have hl : load o state = modify fun s => { s with session } := by rw [load, h]
    obtain ⟨he, hk⟩ := holding_ofFile h
    obtain ⟨s, hs, -⟩ := comesTo_iff.mp (comesTo_diagnose he o)
      { progress := [⟨.loading, 0, 1⟩, ⟨.loading, 1, 1⟩], session } ⟨rfl, hk⟩
    rw [hl]
    exact congrArg Prod.fst hs

/-- Whether the aliases are closed beforehand makes no difference to what an analysis reports, nor
to why it fails. -/
theorem report_eager_eq_lazy (l : Location) (guarded strict : Bool) (state : FileState) :
    (report { location := l, guarded, strict, eager := true } state).outcome.1 =
      (report { location := l, guarded, strict, eager := false } state).outcome.1 := by
  rw [outcome_report, outcome_report]

end Analysis

end TypeAlias
