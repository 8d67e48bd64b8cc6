/-!
# Tables in order of first insertion

A table maps each of its keys to one value and remembers the order in which the keys came. Writing
to a key that is present keeps its place. The view of a table is the look-up `get?`; the laws beside
the operations say what each does to it and to the keys.
-/

namespace TypeAlias

/-- Finitely many keys, each once, with their values, in order of first insertion. -/
structure Table (κ ν : Type) where
  /-- The pairs of key and value. -/
  entries : List (κ × ν)
  /-- No key occurs twice. -/
  nodup_keys : (entries.map Prod.fst).Nodup

namespace Table

variable {κ ν : Type}

/-- The table without keys. -/
def empty : Table κ ν :=
  ⟨[], List.nodup_nil⟩

instance : EmptyCollection (Table κ ν) := ⟨empty⟩

instance : Inhabited (Table κ ν) := ⟨empty⟩

@[ext] theorem ext {t u : Table κ ν} (h : t.entries = u.entries) : t = u := by
  cases t
  cases u
  cases h
  rfl

/-- The keys in order of first insertion. -/
def keys (t : Table κ ν) : List κ :=
  t.entries.map Prod.fst

/-- The values in the order of their keys. -/
def values (t : Table κ ν) : List ν :=
  t.entries.map Prod.snd

/-- The number of keys. -/
def size (t : Table κ ν) : Nat :=
  t.entries.length

variable [DecidableEq κ]

/-- The value of the first pair with the key. -/
def lookup (k : κ) : List (κ × ν) → Option ν
  | [] => none
  | (k', v) :: rest => if k' = k then some v else lookup k rest

/-- Replaces the value of the first pair with the key, or appends a pair. -/
def write (k : κ) (v : ν) : List (κ × ν) → List (κ × ν)
  | [] => [(k, v)]
  | (k', v') :: rest => if k' = k then (k', v) :: rest else (k', v') :: write k v rest

/-- The value of a key. -/
def get? (t : Table κ ν) (k : κ) : Option ν :=
  lookup k t.entries

/-- Whether a key is present. -/
def contains (t : Table κ ν) (k : κ) : Bool :=
  (t.get? k).isSome

omit [DecidableEq κ] in
theorem mem_keys {t : Table κ ν} {k : κ} : k ∈ t.keys ↔ ∃ v, (k, v) ∈ t.entries := by
  simp [keys]

theorem lookup_eq_none_iff {k : κ} {es : List (κ × ν)} :
    lookup k es = none ↔ k ∉ es.map Prod.fst := by
  induction es with
  | nil => simp [lookup]
  | cons e es ih =>
    obtain ⟨k', v⟩ := e
    by_cases h : k' = k
    · simp [lookup, h]
    · have hk : k ≠ k' := fun e => h e.symm
      rw [lookup, if_neg h, ih]
      simp [hk]

theorem lookup_eq_some_iff {k : κ} {v : ν} {es : List (κ × ν)} (h : (es.map Prod.fst).Nodup) :
    lookup k es = some v ↔ (k, v) ∈ es := by
  induction es with
  | nil => simp [lookup]
  | cons e es ih =>
    obtain ⟨k', v'⟩ := e
    rw [List.map_cons, List.nodup_cons] at h
    by_cases hk : k' = k
    · subst hk
      have hn : (k', v) ∉ es := fun hm => h.1 (List.mem_map.mpr ⟨_, hm, rfl⟩)
      simp [lookup, hn, eq_comm]
    · simp [lookup, hk, ih h.2, Ne.symm hk]

theorem lookup_write (k k' : κ) (v : ν) (es : List (κ × ν)) :
    lookup k' (write k v es) = if k' = k then some v else lookup k' es := by
  induction es with
  | nil =>
    by_cases h : k' = k
    · simp [write, lookup, h]
    · simp [write, lookup, h, Ne.symm h]
  | cons e es ih =>
    obtain ⟨a, b⟩ := e
    by_cases ha : a = k
    · subst ha
      by_cases h : k' = a
      · simp [write, lookup, h]
      · simp [write, lookup, h, Ne.symm h]
    · by_cases h : a = k'
      · subst h
        simp [write, lookup, ha]
      · simp [write, lookup, ha, h, ih]

theorem keys_write (k : κ) (v : ν) (es : List (κ × ν)) :
    (write k v es).map Prod.fst =
      if k ∈ es.map Prod.fst then es.map Prod.fst else es.map Prod.fst ++ [k] := by
  induction es with
  | nil => simp [write]
  | cons e es ih =>
    obtain ⟨a, b⟩ := e
    by_cases ha : a = k
    · simp [write, ha]
    · have hk : k ≠ a := fun h => ha h.symm
      simp only [write, ha, if_false, List.map_cons, List.mem_cons, hk, false_or, ih]
      split <;> simp_all

theorem write_of_lookup {k : κ} {v : ν} {es : List (κ × ν)} (h : lookup k es = some v) :
    write k v es = es := by
  induction es with
  | nil => cases h
  | cons e es ih =>
    obtain ⟨a, b⟩ := e
    by_cases ha : a = k
    · rw [lookup, if_pos ha] at h
      cases h
      rw [write, if_pos ha]
    · rw [lookup, if_neg ha] at h
      rw [write, if_neg ha, ih h]

theorem write_of_not_mem {k : κ} (v : ν) {es : List (κ × ν)} (h : k ∉ es.map Prod.fst) :
    write k v es = es ++ [(k, v)] := by
  induction es with
  | nil => rfl
  | cons e es ih =>
    obtain ⟨a, b⟩ := e
    rw [List.map_cons, List.mem_cons, not_or] at h
    rw [write, if_neg (Ne.symm h.1), ih h.2, List.cons_append]

theorem nodup_write (k : κ) (v : ν) {es : List (κ × ν)} (h : (es.map Prod.fst).Nodup) :
    ((write k v es).map Prod.fst).Nodup := by
  rw [keys_write]
  split
  · exact h
  · next hk =>
    rw [List.nodup_append]
    exact ⟨h, by simp, fun a ha b hb hab => hk (by simp_all)⟩

/-- Gives a key a value; a new key comes last. -/
def insert (t : Table κ ν) (k : κ) (v : ν) : Table κ ν :=
  ⟨write k v t.entries, nodup_write k v t.nodup_keys⟩

/-- Changes the value of a key that is present. -/
def modify (t : Table κ ν) (k : κ) (f : ν → ν) : Table κ ν :=
  match t.get? k with
  | none => t
  | some v => t.insert k (f v)

/-- Takes a key away. -/
def erase (t : Table κ ν) (k : κ) : Table κ ν :=
  ⟨t.entries.filter fun e => e.1 ≠ k,
    List.Nodup.sublist (List.filter_sublist.map Prod.fst) t.nodup_keys⟩

/-- The table of a list of pairs: a repeated key keeps its first place and its last value. -/
def ofList (es : List (κ × ν)) : Table κ ν :=
  es.foldl (fun t e => t.insert e.1 e.2) empty

@[simp] theorem get?_empty (k : κ) : (empty : Table κ ν).get? k = none := rfl

@[simp] theorem get?_insert (t : Table κ ν) (k k' : κ) (v : ν) :
    (t.insert k v).get? k' = if k' = k then some v else t.get? k' :=
  lookup_write k k' v t.entries

theorem get?_eq_none_iff {t : Table κ ν} {k : κ} : t.get? k = none ↔ k ∉ t.keys :=
  lookup_eq_none_iff

theorem contains_iff {t : Table κ ν} {k : κ} : t.contains k = true ↔ k ∈ t.keys := by
  rw [contains, Option.isSome_iff_ne_none, Ne, get?_eq_none_iff, Decidable.not_not]

theorem get?_eq_some_iff {t : Table κ ν} {k : κ} {v : ν} :
    t.get? k = some v ↔ (k, v) ∈ t.entries :=
  lookup_eq_some_iff t.nodup_keys

theorem mem_keys_iff_get? {t : Table κ ν} {k : κ} : k ∈ t.keys ↔ ∃ v, t.get? k = some v := by
  rw [← contains_iff, contains, Option.isSome_iff_exists]

theorem mem_values_of_get? {t : Table κ ν} {k : κ} {v : ν} (h : t.get? k = some v) :
    v ∈ t.values :=
  List.mem_map.mpr ⟨(k, v), get?_eq_some_iff.mp h, rfl⟩

theorem keys_insert (t : Table κ ν) (k : κ) (v : ν) :
    (t.insert k v).keys = if k ∈ t.keys then t.keys else t.keys ++ [k] :=
  keys_write k v t.entries

/-- A new key comes last, and the other entries stay as they are. -/
theorem entries_insert_of_not_mem {t : Table κ ν} {k : κ} (h : k ∉ t.keys) (v : ν) :
    (t.insert k v).entries = t.entries ++ [(k, v)] :=
  write_of_not_mem v h

/-- Changing a value to itself changes nothing. -/
theorem modify_eq_self {t : Table κ ν} {k : κ} {f : ν → ν}
    (h : ∀ v, t.get? k = some v → f v = v) : t.modify k f = t := by
  unfold modify
  split
  · rfl
  · next v hv =>
    rw [h v hv]
    exact ext (write_of_lookup hv)

/-- Taking a key away that is not there changes nothing. -/
theorem erase_of_not_mem {t : Table κ ν} {k : κ} (h : k ∉ t.keys) : t.erase k = t := by
  ext1
  apply List.filter_eq_self.mpr
  intro e he
  rw [decide_eq_true_eq]
  rintro rfl
  exact h (mem_keys.mpr ⟨e.2, he⟩)

/-- Taking a key away that was new restores the table. -/
theorem erase_insert_of_not_mem {t : Table κ ν} {k : κ} (h : k ∉ t.keys) (v : ν) :
    (t.insert k v).erase k = t := by
  ext1
  have hk : t.entries.filter (fun e => e.1 ≠ k) = t.entries :=
    congrArg Table.entries (erase_of_not_mem h)
  show (t.insert k v).entries.filter (fun e => e.1 ≠ k) = t.entries
  rw [entries_insert_of_not_mem h, List.filter_append, hk]
  simp

theorem mem_keys_insert {t : Table κ ν} {k k' : κ} {v : ν} :
    k' ∈ (t.insert k v).keys ↔ k' = k ∨ k' ∈ t.keys := by
  rw [mem_keys_iff_get?, mem_keys_iff_get?, get?_insert]
  split
  · next h => simp [h]
  · next h => simp [h]

/-- Giving several keys the same value. -/
theorem get?_foldl_insert (ks : List κ) (v : ν) (t : Table κ ν) (k : κ) :
    (ks.foldl (fun t k => t.insert k v) t).get? k = if k ∈ ks then some v else t.get? k := by
  induction ks generalizing t with
  | nil => simp
  | cons k' ks ih =>
    rw [List.foldl_cons, ih, get?_insert]
    by_cases hk : k ∈ ks
    · rw [if_pos hk, if_pos (List.mem_cons_of_mem _ hk)]
    · rw [if_neg hk]
      simp [hk]

theorem mem_keys_foldl_insert {ks : List κ} {v : ν} {t : Table κ ν} {k : κ} :
    k ∈ (ks.foldl (fun t k => t.insert k v) t).keys ↔ k ∈ ks ∨ k ∈ t.keys := by
  rw [mem_keys_iff_get?, mem_keys_iff_get?, get?_foldl_insert]
  by_cases hk : k ∈ ks <;> simp [hk]

theorem get?_erase (t : Table κ ν) (k k' : κ) :
    (t.erase k).get? k' = if k' = k then none else t.get? k' := by
  apply Option.ext
  intro v
  rw [get?_eq_some_iff, erase, List.mem_filter]
  by_cases hk : k' = k
  · simp [hk]
  · simp [hk, get?_eq_some_iff]

theorem get?_modify (t : Table κ ν) (k k' : κ) (f : ν → ν) :
    (t.modify k f).get? k' = if k' = k then (t.get? k).map f else t.get? k' := by
  unfold modify
  cases h : t.get? k with
  | none => by_cases hk : k' = k <;> simp [hk, h]
  | some v => by_cases hk : k' = k <;> simp [hk]

theorem keys_modify (t : Table κ ν) (k : κ) (f : ν → ν) : (t.modify k f).keys = t.keys := by
  unfold modify
  cases h : t.get? k with
  | none => rfl
  | some v =>
    have hk : k ∈ t.keys := contains_iff.mp (by simp [contains, h])
    rw [keys_insert, if_pos hk]

end Table

end TypeAlias
