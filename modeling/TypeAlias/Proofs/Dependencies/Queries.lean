import TypeAlias.Dependencies.Query
import TypeAlias.Proofs.Returns

/-!
# Sequences of queries

Queries follow each other on what is known, each asked with a name in whatever form the caller gives
it. What reading a definition, closing an alias and reporting something keep, every sequence of
queries keeps, whether they have answers or not.
-/

namespace TypeAlias

namespace Query

variable {α β : Type}

theorem answer_get (d : Dependencies) : (get : Query Dependencies).answer d = (.ok d, d) := rfl

theorem answer_ofLookup (f : Dependencies → Except LookupError α × Dependencies)
    (d : Dependencies) : (ofLookup f).answer d = ((f d).1.mapError .lookup, (f d).2) := rfl

theorem answer_bind (q : Query α) (f : α → Query β) (d : Dependencies) :
    (q >>= f).answer d =
      match q.answer d with
      | (.ok a, d) => (f a).answer d
      | (.error e, d) => (.error e, d) := by
  unfold answer
  rw [run_bind]
  generalize q.run.run d = r
  obtain ⟨r, d⟩ := r
  cases r <;> rfl

theorem answer_discard (q : Query α) (d : Dependencies) :
    (discard q).answer d = ((q.answer d).1.map fun _ => (), (q.answer d).2) := by
  show ((fun _ => ()) <$> q : Query Unit).answer d = _
  rw [← bind_pure_comp, answer_bind]
  generalize q.answer d = r
  obtain ⟨r, d⟩ := r
  cases r <;> rfl

/-- A query keeps a property of what is known, whether it has an answer or not. -/
def Keeps (p : Dependencies → Prop) (q : Query α) : Prop :=
  ∀ d, p d → p (q.answer d).2

variable {p : Dependencies → Prop}

/-- A query that keeps a property returns what it always answers. -/
theorem Keeps.returns {q : Query α} (h : Keeps p q) {result : α → Prop}
    (ha : ∀ d, p d → ∃ a, (q.answer d).1 = .ok a ∧ result a) : Returns p q result := by
  intro d hd
  obtain ⟨a, hq, hr⟩ := ha d hd
  exact ⟨a, (q.answer d).2, Prod.ext hq rfl, hr, h d hd⟩

theorem keeps_of_returns {q : Query α} {result : α → Prop} (h : Returns p q result) :
    Keeps p q := by
  intro d hd
  obtain ⟨a, d', hq, -, hd'⟩ := h d hd
  exact congrArg Prod.snd hq ▸ hd'

theorem keeps_of_comesTo {q : Query α} {r : Except QueryError α} (h : ComesTo p q r) :
    Keeps p q := by
  intro d hd
  obtain ⟨d', hq, hd'⟩ := comesTo_iff.mp h d hd
  exact congrArg Prod.snd hq ▸ hd'

theorem keeps_pure (a : α) : Keeps p (pure a : Query α) :=
  fun _ h => h

theorem keeps_get : Keeps p (get : Query Dependencies) :=
  fun _ h => h

theorem keeps_name (text : String) : Keeps p (name text) := by
  unfold name
  split
  · exact fun _ h => h
  · exact fun _ h => h

theorem keeps_canonical (env : Environment) (name : TypeName) : Keeps p (canonical env name) :=
  fun _ h => h

theorem keeps_bind {q : Query α} {f : α → Query β} (hq : Keeps p q) (hf : ∀ a, Keeps p (f a)) :
    Keeps p (q >>= f) := by
  intro d h
  have hd := hq d h
  rw [answer_bind]
  generalize q.answer d = r at hd
  obtain ⟨r, d⟩ := r
  cases r with
  | ok a => exact hf a d hd
  | error e => exact hd

theorem keeps_discard {q : Query α} (hq : Keeps p q) : Keeps p (discard q) := by
  intro d h
  rw [answer_discard]
  exact hq d h

theorem keeps_forM {f : α → Query Unit} (hf : ∀ a, Keeps p (f a)) (as : List α) :
    Keeps p (as.forM f) := by
  induction as with
  | nil => exact keeps_pure ()
  | cons a as ih => exact keeps_bind (hf a) fun _ => ih

theorem keeps_mapM {f : α → Query β} (hf : ∀ a, Keeps p (f a)) (as : List α) :
    Keeps p (as.mapM f) := by
  induction as with
  | nil => exact keeps_pure []
  | cons a as ih =>
    rw [List.mapM_cons]
    exact keeps_bind (hf a) fun _ => keeps_bind ih fun _ => keeps_pure _

theorem keeps_filterMapM {f : α → Query (Option β)} (hf : ∀ a, Keeps p (f a)) (as : List α) :
    Keeps p (as.filterMapM f) := by
  induction as with
  | nil => exact keeps_pure []
  | cons a as ih =>
    rw [List.filterMapM_cons]
    apply keeps_bind (hf a)
    intro b
    cases b with
    | none => exact ih
    | some b => exact keeps_bind ih fun _ => keeps_pure _

theorem keeps_filterM {f : α → Query Bool} (hf : ∀ a, Keeps p (f a)) (as : List α) :
    Keeps p (as.filterM f) := by
  have collect (earlier : List α) : Keeps p (as.filterAuxM f earlier) := by
    induction as generalizing earlier with
    | nil => exact keeps_pure earlier
    | cons a as ih => exact keeps_bind (hf a) fun b => ih (cond b (a :: earlier) earlier)
  exact keeps_bind (collect []) fun _ => keeps_pure _

end Query

/-- A name as it is given to a query: a text still to be read, or a name. -/
inductive GivenName where
  | text (text : String)
  | name (name : TypeName)

/-- Reads a given name. -/
def GivenName.read : GivenName → Query TypeName
  | text t => Query.name t
  | name n => pure n

/-- The questions that can be asked. -/
inductive Question where
  | isCircular (x : GivenName)
  | directDependencies (x : GivenName)
  | dependencies (x : GivenName)
  | transitiveDependencies (x : GivenName)
  | cycle (x : GivenName)
  | danglingReferences (x : GivenName)
  | readAll
  | closeAll

namespace Question

/-- Asks a question, for the sake of what is known afterwards. -/
def ask (env : Environment) : Question → Query Unit
  | isCircular x => do discard (Query.isCircular env (← x.read))
  | directDependencies x => do discard (Query.directDependencies env (← x.read))
  | dependencies x => do discard (Query.dependencies env (← x.read))
  | transitiveDependencies x => do discard (Query.transitiveDependencies env (← x.read))
  | cycle x => do discard (Query.cycle env (← x.read))
  | danglingReferences x => do discard (Query.danglingReferences env (← x.read))
  | readAll => Query.readAll env
  | closeAll => Query.closeAll env

/-- What is known after some questions, with or without answers. -/
def askAll (env : Environment) (history : List Question) (d : Dependencies) : Dependencies :=
  history.foldl (fun d q => ((q.ask env).answer d).2) d

end Question

/-- A property of what is known that everything a query does keeps. -/
structure Stable (env : Environment) (p : Dependencies → Prop) : Prop where
  tell : ∀ d notice, p d → p (d.tell notice)
  direct : ∀ d name, p d → p (d.readDirect env name).2
  reached : ∀ d name, p d → p (d.readReached env name).2

namespace Stable

open Query

variable {env : Environment} {p : Dependencies → Prop}

theorem and {p' : Dependencies → Prop} (h : Stable env p) (h' : Stable env p') :
    Stable env fun d => p d ∧ p' d where
  tell d notice hd := ⟨h.tell d notice hd.1, h'.tell d notice hd.2⟩
  direct d name hd := ⟨h.direct d name hd.1, h'.direct d name hd.2⟩
  reached d name hd := ⟨h.reached d name hd.1, h'.reached d name hd.2⟩

theorem directOf (h : Stable env p) (name : TypeName) : Keeps p (Query.directOf env name) :=
  fun d hd => h.direct d name hd

theorem reachedOf (h : Stable env p) (name : TypeName) : Keeps p (Query.reachedOf env name) :=
  fun d hd => h.reached d name hd

theorem canonical {α : Type} {f : TypeName → Query α} (hf : ∀ name, Keeps p (f name))
    (name : TypeName) : Keeps p (Query.canonical env name >>= f) :=
  keeps_bind (keeps_canonical env name) hf

theorem isCircular (h : Stable env p) : ∀ name, Keeps p (Query.isCircular env name) :=
  canonical fun name => keeps_bind (h.reachedOf name) fun _ => keeps_pure _

theorem directDependencies (h : Stable env p) :
    ∀ name, Keeps p (Query.directDependencies env name) :=
  canonical h.directOf

theorem transitiveDependencies (h : Stable env p) :
    ∀ name, Keeps p (Query.transitiveDependencies env name) :=
  canonical h.reachedOf

theorem dependencies (h : Stable env p) (name : TypeName) :
    Keeps p (Query.dependencies env name) :=
  keeps_bind (h.transitiveDependencies name) fun _ => keeps_pure _

theorem cycle (h : Stable env p) : ∀ name, Keeps p (Query.cycle env name) :=
  canonical fun name => keeps_bind (h.reachedOf name) fun _ =>
    keeps_bind keeps_get fun _ => keeps_pure _

theorem danglingReferences (h : Stable env p) :
    ∀ name, Keeps p (Query.danglingReferences env name) :=
  canonical fun name => keeps_bind (h.directOf name) fun _ =>
    keeps_bind keeps_get fun _ => keeps_pure _

theorem readAll (h : Stable env p) : Keeps p (Query.readAll env) :=
  keeps_forM (fun name => keeps_discard (h.directOf name)) _

theorem closeAll (h : Stable env p) : Keeps p (Query.closeAll env) := by
  apply keeps_bind h.readAll
  intro _
  apply keeps_bind (keeps_forM (fun name => keeps_discard (h.reachedOf name)) _)
  exact fun _ => keeps_bind keeps_get fun _ d hd => h.tell d _ hd

theorem ofName {α : Type} {x : GivenName} {q : TypeName → Query α}
    (hq : ∀ name, Keeps p (q name)) : Keeps p (do discard (q (← x.read))) := by
  apply keeps_bind
  · cases x with
    | text t => exact keeps_name t
    | name n => exact keeps_pure n
  · exact fun name => keeps_discard (hq name)

/-- One question. -/
theorem ask (h : Stable env p) (q : Question) : Keeps p (q.ask env) := by
  cases q with
  | isCircular x => exact ofName h.isCircular
  | directDependencies x => exact ofName h.directDependencies
  | dependencies x => exact ofName h.dependencies
  | transitiveDependencies x => exact ofName h.transitiveDependencies
  | cycle x => exact ofName h.cycle
  | danglingReferences x => exact ofName h.danglingReferences
  | readAll => exact h.readAll
  | closeAll => exact h.closeAll

/-- Any number of questions, in any order. -/
theorem askAll (h : Stable env p) (history : List Question) {d : Dependencies} (hd : p d) :
    p (Question.askAll env history d) := by
  induction history generalizing d with
  | nil => exact hd
  | cons q history ih => exact ih (h.ask q d hd)

end Stable

end TypeAlias
