import TypeAlias.Table

/-!
# Strict access to tables

With strict access it is a fault to look up what is not in a table, and to write what is there
already. Where a program never runs into a fault, everything it looks up has been written, and
nothing that has been written is ever changed.
-/

namespace TypeAlias

/-- An access that must not happen. -/
inductive Fault (κ : Type) where
  /-- Something is looked up that is not there. -/
  | absent (key : κ)
  /-- Something is written that is there already. -/
  | present (key : κ)
  /-- An element is taken from nothing. -/
  | empty
  /-- Something is asked for that never comes about. -/
  | endless
  deriving DecidableEq

theorem bind_ok {ε α β : Type} {x : Except ε α} {f : α → Except ε β} {b : β} (h : x >>= f = .ok b) :
    ∃ a, x = .ok a ∧ f a = .ok b := by
  cases x with
  | error e => cases h
  | ok a => exact ⟨a, rfl, h⟩

theorem mapM_ok {ε α β : Type} {f : α → Except ε β} {g : α → β} {as : List α}
    (h : ∀ a ∈ as, f a = .ok (g a)) : as.mapM f = .ok (as.map g) := by
  induction as with
  | nil => rfl
  | cons a as ih =>
    rw [List.mapM_cons, h a List.mem_cons_self, ih fun a' ha => h a' (List.mem_cons_of_mem _ ha)]
    rfl

namespace Table

variable {κ ν : Type} [DecidableEq κ] {t u w : Table κ ν} {k : κ} {v : ν}

/-- The value of a key that has to be present. -/
def fetch (t : Table κ ν) (k : κ) : Except (Fault κ) ν :=
  match t.get? k with
  | none => .error (.absent k)
  | some v => .ok v

/-- Gives a value to a key that has to be new. -/
def writeNew (t : Table κ ν) (k : κ) (v : ν) : Except (Fault κ) (Table κ ν) :=
  if t.contains k then .error (.present k) else .ok (t.insert k v)

/-- Every entry of a table is in another one. -/
def Within (t u : Table κ ν) : Prop :=
  ∀ k v, t.get? k = some v → u.get? k = some v

theorem Within.refl (t : Table κ ν) : t.Within t :=
  fun _ _ h => h

theorem Within.trans (htu : t.Within u) (huw : u.Within w) : t.Within w :=
  fun k v h => huw k v (htu k v h)

theorem fetch_of_get? (h : t.get? k = some v) : t.fetch k = .ok v := by
  rw [fetch, h]

theorem mapM_fetch {ks : List κ} (h : ∀ k ∈ ks, k ∈ t.keys) (default : ν) :
    ks.mapM t.fetch = .ok (ks.map fun k => (t.get? k).getD default) := by
  apply mapM_ok
  intro k hk
  obtain ⟨v, hv⟩ := mem_keys_iff_get?.mp (h k hk)
  rw [fetch_of_get? hv, hv]
  rfl

theorem writeNew_of_not_mem (h : k ∉ t.keys) (v : ν) : t.writeNew k v = .ok (t.insert k v) :=
  if_neg fun hc => h (contains_iff.mp hc)

theorem within_writeNew (h : t.writeNew k v = .ok u) : t.Within u := by
  unfold writeNew at h
  split at h
  · cases h
  · next hc =>
    cases h
    intro k' v' hk'
    have hne : k' ≠ k := by
      rintro rfl
      exact hc (contains_iff.mpr (mem_keys_iff_get?.mpr ⟨v', hk'⟩))
    rw [get?_insert, if_neg hne, hk']

/-- Giving new keys the same value. -/
theorem foldlM_writeNew {ks : List κ} (hn : ks.Nodup) (h : ∀ k ∈ ks, k ∉ t.keys) (v : ν) :
    ks.foldlM (fun t k => t.writeNew k v) t = .ok (ks.foldl (fun t k => t.insert k v) t) := by
  induction ks generalizing t with
  | nil => rfl
  | cons k ks ih =>
    rw [List.nodup_cons] at hn
    rw [List.foldlM_cons, List.foldl_cons, writeNew_of_not_mem (h k List.mem_cons_self) v]
    apply ih hn.2
    intro k' hk' hm
    rcases mem_keys_insert.mp hm with rfl | hm
    · exact hn.1 hk'
    · exact h k' (List.mem_cons_of_mem _ hk') hm

theorem within_foldlM_writeNew {ks : List κ}
    (h : ks.foldlM (fun t k => t.writeNew k v) t = .ok u) : t.Within u := by
  induction ks generalizing t with
  | nil =>
    cases h
    exact Within.refl _
  | cons k ks ih =>
    rw [List.foldlM_cons] at h
    obtain ⟨t', hk, h⟩ := bind_ok h
    exact (within_writeNew hk).trans (ih h)

end Table

end TypeAlias
