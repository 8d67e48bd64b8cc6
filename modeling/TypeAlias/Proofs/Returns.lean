/-!
# What a computation returns

A computation that keeps a property of its state returns, from every state with the property, a
result of some kind, or it fails, from each of them, in the same way. What the parts of a
computation return tells what the whole returns.
-/

namespace TypeAlias

variable {σ ε α β : Type} {p : σ → Prop}

/-- From every state with a property a computation returns a result of some kind, and the property
holds afterwards, too. -/
def Returns (p : σ → Prop) (q : ExceptT ε (StateM σ) α) (result : α → Prop) : Prop :=
  ∀ s, p s → ∃ a s', q.run.run s = (.ok a, s') ∧ result a ∧ p s'

/-- From every state with a property a computation fails in the same way, and the property holds
afterwards, too. -/
def Fails (p : σ → Prop) (q : ExceptT ε (StateM σ) α) (e : ε) : Prop :=
  ∀ s, p s → ∃ s', q.run.run s = (.error e, s') ∧ p s'

/-- From every state with a property a computation comes to a given result, or fails in a given
way. -/
def ComesTo (p : σ → Prop) (q : ExceptT ε (StateM σ) α) : Except ε α → Prop
  | .ok a => Returns p q (· = a)
  | .error e => Fails p q e

theorem run_get (s : σ) : (get : ExceptT ε (StateM σ) σ).run.run s = (.ok s, s) := rfl

theorem run_bind (q : ExceptT ε (StateM σ) α) (f : α → ExceptT ε (StateM σ) β) (s : σ) :
    (q >>= f).run.run s =
      match q.run.run s with
      | (.ok a, s) => (f a).run.run s
      | (.error e, s) => (.error e, s) := by
  show (match q.run.run s with | (r, s) => (ExceptT.bindCont f r) s) = _
  generalize q.run.run s = r
  obtain ⟨r, s⟩ := r
  cases r <;> rfl

theorem run_map (q : ExceptT ε (StateM σ) α) (f : α → β) (s : σ) :
    (f <$> q).run.run s = ((q.run.run s).1.map f, (q.run.run s).2) := by
  rw [← bind_pure_comp, run_bind]
  generalize q.run.run s = r
  obtain ⟨r, s⟩ := r
  cases r <;> rfl

theorem run_tryCatch (q : ExceptT ε (StateM σ) α) (handler : ε → ExceptT ε (StateM σ) α) (s : σ) :
    (tryCatch q handler).run.run s =
      match q.run.run s with
      | (.ok a, s) => (.ok a, s)
      | (.error e, s) => (handler e).run.run s := by
  rw [ExceptT.run_tryCatch, StateT.run_bind]
  show (match q.run.run s with | (r, s) => _) = _
  generalize q.run.run s = r
  obtain ⟨r, s⟩ := r
  cases r <;> rfl

section Returns

variable {q : ExceptT ε (StateM σ) α} {f : α → ExceptT ε (StateM σ) β} {result : α → Prop}
  {result' : β → Prop} {e : ε}

theorem returns_pure {a : α} (h : result a) :
    Returns p (pure a : ExceptT ε (StateM σ) α) result :=
  fun s hs => ⟨a, s, rfl, h, hs⟩

theorem returns_get : Returns p (get : ExceptT ε (StateM σ) σ) p :=
  fun s hs => ⟨s, s, rfl, hs, hs⟩

theorem returns_modify {g : σ → σ} (h : ∀ s, p s → p (g s)) :
    Returns p (modify g : ExceptT ε (StateM σ) Unit) fun _ => True :=
  fun s hs => ⟨(), g s, rfl, trivial, h s hs⟩

theorem fails_throw (e : ε) : Fails p (throw e : ExceptT ε (StateM σ) α) e :=
  fun s hs => ⟨s, rfl, hs⟩

theorem Returns.imp (h : Returns p q result) {kind : α → Prop} (hr : ∀ a, result a → kind a) :
    Returns p q kind := by
  intro s hs
  obtain ⟨a, s', hq, ha, hs'⟩ := h s hs
  exact ⟨a, s', hq, hr a ha, hs'⟩

/-- What a computation returns when another property of its state is kept, too. -/
theorem Returns.and {p' : σ → Prop} (h : Returns p q result)
    (hk : ∀ s, p' s → p' (q.run.run s).2) : Returns (fun s => p s ∧ p' s) q result := by
  rintro s ⟨hs, hs'⟩
  obtain ⟨a, s'', hq, ha, hp⟩ := h s hs
  have hp' := hk s hs'
  rw [hq] at hp'
  exact ⟨a, s'', hq, ha, hp, hp'⟩

theorem Returns.bind (h : Returns p q result) (hf : ∀ a, result a → Returns p (f a) result') :
    Returns p (q >>= f) result' := by
  intro s hs
  obtain ⟨a, s', hq, ha, hs'⟩ := h s hs
  rw [run_bind, hq]
  exact hf a ha s' hs'

theorem Returns.bind_fails (h : Returns p q result) (hf : ∀ a, result a → Fails p (f a) e) :
    Fails p (q >>= f) e := by
  intro s hs
  obtain ⟨a, s', hq, ha, hs'⟩ := h s hs
  rw [run_bind, hq]
  exact hf a ha s' hs'

theorem Fails.bind (h : Fails p q e) (f : α → ExceptT ε (StateM σ) β) :
    Fails p (q >>= f) e := by
  intro s hs
  obtain ⟨s', hq, hs'⟩ := h s hs
  rw [run_bind, hq]
  exact ⟨s', rfl, hs'⟩

theorem Returns.discard (h : Returns p q result) : Returns p (discard q) fun _ => True := by
  show Returns p ((fun _ => ()) <$> q) _
  rw [← bind_pure_comp]
  exact h.bind fun _ _ => returns_pure trivial

theorem comesTo_iff {r : Except ε α} :
    ComesTo p q r ↔ ∀ s, p s → ∃ s', q.run.run s = (r, s') ∧ p s' := by
  cases r with
  | error e => exact Iff.rfl
  | ok a =>
    constructor
    · intro h s hs
      obtain ⟨_, s', hq, rfl, hs'⟩ := h s hs
      exact ⟨s', hq, hs'⟩
    · intro h s hs
      obtain ⟨s', hq, hs'⟩ := h s hs
      exact ⟨a, s', hq, rfl, hs'⟩

/-- What follows a computation decides what the whole comes to. -/
theorem Returns.bind_comesTo {r : Except ε β} (h : Returns p q result)
    (hf : ∀ a, result a → ComesTo p (f a) r) : ComesTo p (q >>= f) r := by
  cases r with
  | ok b => exact h.bind hf
  | error e => exact h.bind_fails hf

/-- What a computation comes to when another property of its state is kept, too. -/
theorem ComesTo.and {p' : σ → Prop} {r : Except ε α} (h : ComesTo p q r)
    (hk : ∀ s, p' s → p' (q.run.run s).2) : ComesTo (fun s => p s ∧ p' s) q r := by
  rw [comesTo_iff] at h ⊢
  rintro s ⟨hs, hs'⟩
  obtain ⟨s'', hq, hp⟩ := h s hs
  have hp' := hk s hs'
  rw [hq] at hp'
  exact ⟨s'', hq, hp, hp'⟩

/-- A handler that is not needed. -/
theorem Returns.tryCatch (h : Returns p q result) (handler : ε → ExceptT ε (StateM σ) α) :
    Returns p (tryCatch q handler) result := by
  intro s hs
  obtain ⟨a, s', hq, ha, hs'⟩ := h s hs
  rw [run_tryCatch, hq]
  exact ⟨a, s', rfl, ha, hs'⟩

/-- A handler that helps. -/
theorem Fails.tryCatch_returns (h : Fails p q e) {handler : ε → ExceptT ε (StateM σ) α}
    (hr : Returns p (handler e) result) : Returns p (tryCatch q handler) result := by
  intro s hs
  obtain ⟨s', hq, hs'⟩ := h s hs
  rw [run_tryCatch, hq]
  exact hr s' hs'

/-- A handler that does not help. -/
theorem Fails.tryCatch_fails (h : Fails p q e) {handler : ε → ExceptT ε (StateM σ) α} {e' : ε}
    (hr : Fails p (handler e) e') : Fails p (tryCatch q handler) e' := by
  intro s hs
  obtain ⟨s', hq, hs'⟩ := h s hs
  rw [run_tryCatch, hq]
  exact hr s' hs'

end Returns

/-! ## Lists -/

section Lists

variable {as : List α}

theorem returns_forM {f : α → ExceptT ε (StateM σ) Unit}
    (hf : ∀ a ∈ as, Returns p (f a) fun _ => True) :
    Returns p (as.forM f) fun _ => True := by
  induction as with
  | nil => exact returns_pure trivial
  | cons a as ih =>
    exact (hf a List.mem_cons_self).bind fun _ _ =>
      ih fun a' ha => hf a' (List.mem_cons_of_mem _ ha)

theorem returns_mapM {f : α → ExceptT ε (StateM σ) β}
    (hf : ∀ a ∈ as, Returns p (f a) fun _ => True) :
    Returns p (as.mapM f) fun _ => True := by
  induction as with
  | nil => exact returns_pure trivial
  | cons a as ih =>
    rw [List.mapM_cons]
    refine (hf a List.mem_cons_self).bind fun _ _ => ?_
    refine (ih fun a' ha => hf a' (List.mem_cons_of_mem _ ha)).bind fun _ _ => ?_
    exact returns_pure trivial

theorem returns_mapM_map {f : α → ExceptT ε (StateM σ) β} {g : α → β}
    (hf : ∀ a ∈ as, Returns p (f a) (· = g a)) : Returns p (as.mapM f) (· = as.map g) := by
  induction as with
  | nil => exact returns_pure rfl
  | cons a as ih =>
    rw [List.mapM_cons]
    apply (hf a List.mem_cons_self).bind
    rintro _ rfl
    apply (ih fun a' ha => hf a' (List.mem_cons_of_mem _ ha)).bind
    rintro _ rfl
    exact returns_pure rfl

theorem returns_filterMapM {f : α → ExceptT ε (StateM σ) (Option β)} {g : α → Option β}
    (hf : ∀ a ∈ as, Returns p (f a) (· = g a)) :
    Returns p (as.filterMapM f) (· = as.filterMap g) := by
  induction as with
  | nil => exact returns_pure rfl
  | cons a as ih =>
    have hrest := ih fun a' ha => hf a' (List.mem_cons_of_mem _ ha)
    rw [List.filterMapM_cons]
    apply (hf a List.mem_cons_self).bind
    rintro _ rfl
    rw [List.filterMap_cons]
    cases g a with
    | none => exact hrest
    | some b =>
      apply hrest.bind
      rintro _ rfl
      exact returns_pure rfl

theorem returns_filterM {f : α → ExceptT ε (StateM σ) Bool} {g : α → Bool}
    (hf : ∀ a ∈ as, Returns p (f a) (· = g a)) :
    Returns p (as.filterM f) (· = as.filter g) := by
  -- The elements that are kept are collected in front of earlier ones.
  have collect (earlier : List α) : Returns p (as.filterAuxM f earlier)
      (· = (as.filter g).reverse ++ earlier) := by
    induction as generalizing earlier with
    | nil => exact returns_pure rfl
    | cons a as ih =>
      apply (hf a List.mem_cons_self).bind
      rintro _ rfl
      have hrest := ih (fun a' ha => hf a' (List.mem_cons_of_mem _ ha))
        (cond (g a) (a :: earlier) earlier)
      apply hrest.imp
      rintro _ rfl
      cases hg : g a <;> simp [hg]
  apply (collect []).bind
  rintro _ rfl
  apply returns_pure
  rw [List.append_nil, List.reverse_reverse]

end Lists

end TypeAlias
