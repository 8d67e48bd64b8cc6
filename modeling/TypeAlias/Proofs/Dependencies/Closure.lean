import TypeAlias.Dependencies.Basic
import TypeAlias.Proofs.Graph.Cycles

/-!
# Closed aliases

What is kept of a closed alias agrees with the direct dependencies that have been read: everything
the alias leads to is closed, its closure holds just that, with whether it leads back, and it is
circular when it leads back to itself. Reading another definition keeps this, and so does closing a
component on top of what is closed.
-/

namespace TypeAlias.Dependencies

variable {d : Dependencies} {component : List TypeName} {cyclic : Bool}

/-- The graph of the direct dependencies that have been read. -/
def cached (d : Dependencies) : Digraph TypeName where
  succ n := (d.direct.get? n).getD []

theorem succ_cached (n : TypeName) : d.cached.succ n = (d.direct.get? n).getD [] := rfl

/-- A closure with further dependencies, none of them in a cycle with the dependents. -/
structure Extends (t u : Table TypeName Bool) (p : TypeName → Prop) : Prop where
  mem_keys : ∀ k, k ∈ u.keys ↔ k ∈ t.keys ∨ p k
  flag : ∀ k, u.get? k = some true ↔ t.get? k = some true

theorem extends_addReached (t : Table TypeName Bool) (name : TypeName) :
    Extends t (addReached t name) (· = name) := by
  unfold addReached
  split
  · next h =>
    constructor
    · intro k
      rw [iff_self_or]
      rintro rfl
      exact Table.contains_iff.mp h
    · exact fun k => Iff.rfl
  · next h =>
    constructor
    · intro k
      rw [Table.mem_keys_insert, or_comm]
    · intro k
      rw [Table.get?_insert]
      split
      · next hk =>
        have hn : t.get? k = none := by
          rw [Table.get?_eq_none_iff, hk]
          exact fun hm => h (Table.contains_iff.mpr hm)
        simp [hn]
      · exact Iff.rfl

/-- Extending a closure by one thing after the other. -/
theorem extends_foldl {β : Type} {f : Table TypeName Bool → β → Table TypeName Bool}
    {p : β → TypeName → Prop} (h : ∀ t x, Extends t (f t x) (p x)) (xs : List β)
    (t : Table TypeName Bool) : Extends t (xs.foldl f t) fun k => ∃ x ∈ xs, p x k := by
  induction xs generalizing t with
  | nil =>
    constructor
    · intro k
      simp
    · exact fun k => Iff.rfl
  | cons x xs ih =>
    constructor
    · intro k
      rw [List.foldl_cons, (ih (f t x)).mem_keys, (h t x).mem_keys, or_assoc]
      simp
    · intro k
      rw [List.foldl_cons, (ih (f t x)).flag, (h t x).flag]

theorem extends_spliceIn (d : Dependencies) (component : List TypeName) (t : Table TypeName Bool)
    (dep : TypeName) :
    Extends t (d.spliceIn component t dep) fun k =>
      dep ∉ component ∧ (k = dep ∨ k ∈ ((d.reached.get? dep).getD ∅).keys) := by
  unfold spliceIn
  split
  · next h =>
    constructor
    · intro k
      simp [h]
    · exact fun k => Iff.rfl
  · next h =>
    have hdep := extends_addReached t dep
    have hall := extends_foldl extends_addReached ((d.reached.get? dep).getD ∅).keys
      (addReached t dep)
    constructor
    · intro k
      rw [hall.mem_keys, hdep.mem_keys, or_assoc]
      simp [h]
    · intro k
      rw [hall.flag, hdep.flag]

/-- The closure that a component starts with. -/
theorem mem_keys_start (k : TypeName) :
    k ∈ (if cyclic then component.foldl (fun t m => t.insert m true) ∅ else
      (∅ : Table TypeName Bool)).keys ↔ cyclic = true ∧ k ∈ component := by
  cases cyclic with
  | false =>
    show k ∈ [] ↔ _
    simp
  | true =>
    rw [if_pos rfl, Table.mem_keys_foldl_insert]
    show k ∈ component ∨ k ∈ [] ↔ _
    simp

theorem get?_start (k : TypeName) :
    (if cyclic then component.foldl (fun t m => t.insert m true) ∅ else
      (∅ : Table TypeName Bool)).get? k = some true ↔ cyclic = true ∧ k ∈ component := by
  have hn : (∅ : Table TypeName Bool).get? k = none := rfl
  cases cyclic with
  | false => simp [hn]
  | true =>
    rw [if_pos rfl, Table.get?_foldl_insert, hn]
    simp

/-- What a closure holds: the members of a cycle, and, for each edge out of the component, where it
leads and the closure found there. -/
theorem mem_keys_closureOf (k : TypeName) :
    k ∈ (d.closureOf component cyclic).keys ↔
      (cyclic = true ∧ k ∈ component) ∨ ∃ m ∈ component, ∃ dep ∈ d.cached.succ m,
        dep ∉ component ∧ (k = dep ∨ k ∈ ((d.reached.get? dep).getD ∅).keys) := by
  rw [closureOf, (extends_foldl (extends_spliceIn d component) _ _).mem_keys, mem_keys_start]
  apply or_congr Iff.rfl
  simp only [List.mem_flatMap, cached]
  constructor
  · rintro ⟨dep, ⟨m, hm, hdep⟩, h⟩
    exact ⟨m, hm, dep, hdep, h⟩
  · rintro ⟨m, hm, dep, hdep, h⟩
    exact ⟨dep, ⟨m, hm, hdep⟩, h⟩

/-- Only the members of a cycle are flagged. -/
theorem get?_closureOf (k : TypeName) :
    (d.closureOf component cyclic).get? k = some true ↔ cyclic = true ∧ k ∈ component := by
  rw [closureOf, (extends_foldl (extends_spliceIn d component) _ _).flag, get?_start]

theorem direct_close : (d.close component cyclic).direct = d.direct := by
  cases cyclic <;> rfl

theorem dangling_close : (d.close component cyclic).dangling = d.dangling := by
  cases cyclic <;> rfl

theorem cached_close : (d.close component cyclic).cached = d.cached := by
  rw [cached, direct_close]
  rfl

theorem guarded_close : (d.close component cyclic).guarded = d.guarded := by
  cases cyclic <;> rfl

theorem get?_reached_close (n : TypeName) :
    (d.close component cyclic).reached.get? n =
      if n ∈ component then some (d.closureOf component cyclic) else d.reached.get? n := by
  cases cyclic <;> exact Table.get?_foldl_insert component _ _ n

theorem mem_reached_close (n : TypeName) :
    n ∈ (d.close component cyclic).reached.keys ↔ n ∈ component ∨ n ∈ d.reached.keys := by
  cases cyclic <;> exact Table.mem_keys_foldl_insert

theorem get?_cycles_close (n : TypeName) :
    (d.close component cyclic).cycles.get? n =
      if cyclic = true ∧ n ∈ component then some component else d.cycles.get? n := by
  cases cyclic with
  | false => rfl
  | true =>
    show (component.foldl (fun t m => t.insert m component) d.cycles).get? n = _
    rw [Table.get?_foldl_insert]
    simp

/-- A component that has been read and is on top of what is closed, and whether it holds a cycle. -/
structure Closable (d : Dependencies) (component : List TypeName) (cyclic : Bool) : Prop where
  onTop : d.cached.OnTop {n | n ∈ d.reached.keys} component
  read : ∀ n ∈ component, n ∈ d.direct.keys
  cyclic_iff : cyclic = true ↔ d.cached.HoldsCycle component

/-- What is kept of the closed aliases agrees with the direct dependencies that have been read. -/
structure Invariant (d : Dependencies) : Prop where
  read : ∀ n ∈ d.reached.keys, n ∈ d.direct.keys
  closed : ∀ n ∈ d.reached.keys, ∀ m ∈ d.cached.succ n, m ∈ d.reached.keys
  closure : ∀ n t, d.reached.get? n = some t → ∀ m, m ∈ t.keys ↔ d.cached.LeadsTo n m
  flag : ∀ n t, d.reached.get? n = some t → ∀ m,
    t.get? m = some true ↔ d.cached.LeadsTo n m ∧ d.cached.LeadsTo m n
  circular : ∀ n, n ∈ d.cycles.keys ↔ n ∈ d.reached.keys ∧ d.cached.LeadsTo n n
  cycle : ∀ n c, d.cycles.get? n = some c →
    c.Nodup ∧ ∀ m, m ∈ c ↔ d.cached.LeadsTo n m ∧ d.cached.LeadsTo m n

namespace Invariant

/-- Before anything is known. -/
theorem initial (guarded : Bool) : Invariant { guarded := guarded } := by
  constructor
  · exact fun n hn => absurd hn List.not_mem_nil
  · exact fun n hn => absurd hn List.not_mem_nil
  · exact fun n t hn => by cases hn
  · exact fun n t hn => by cases hn
  · intro n
    show n ∈ [] ↔ n ∈ [] ∧ _
    simp
  · exact fun n c hn => by cases hn

theorem mem_reached (h : Invariant d) {n m : TypeName} (hn : n ∈ d.reached.keys)
    (hnm : d.cached.LeadsTo n m) : m ∈ d.reached.keys :=
  Digraph.Reaches.keeps (p := (· ∈ d.reached.keys)) h.closed hnm.to_reflTransGen hn

/-- Knowing more direct dependencies changes nothing for the closed aliases. -/
theorem grow (h : Invariant d) {d' : Dependencies} (hr : d'.reached = d.reached)
    (hc : d'.cycles = d.cycles)
    (hd : ∀ n ∈ d.direct.keys, d'.direct.get? n = d.direct.get? n) : Invariant d' := by
  have hs : ∀ n, n ∈ d.reached.keys → d'.cached.succ n = d.cached.succ n := by
    intro n hn
    rw [succ_cached, succ_cached, hd n (h.read n hn)]
  have hp : ∀ n, n ∈ d.reached.keys → ∀ m ∈ d'.cached.succ n, m ∈ d.reached.keys := by
    intro n hn m hm
    rw [hs n hn] at hm
    exact h.closed n hn m hm
  have he : ∀ n, n ∈ d.reached.keys → ∀ m, m ∈ d'.cached.succ n ↔ m ∈ d.cached.succ n := by
    intro n hn m
    rw [hs n hn]
  have leadsTo {n m : TypeName} (hn : n ∈ d.reached.keys) :
      d'.cached.LeadsTo n m ↔ d.cached.LeadsTo n m :=
    Digraph.leadsTo_congr (p := (· ∈ d.reached.keys)) he hp hn
  have both {n m : TypeName} (hn : n ∈ d.reached.keys) :
      d'.cached.LeadsTo n m ∧ d'.cached.LeadsTo m n ↔
        d.cached.LeadsTo n m ∧ d.cached.LeadsTo m n :=
    Digraph.mutual_congr (p := (· ∈ d.reached.keys)) he hp hn
  constructor
  · rw [hr]
    intro n hn
    obtain ⟨deps, hdeps⟩ := Table.mem_keys_iff_get?.mp (h.read n hn)
    exact Table.mem_keys_iff_get?.mpr ⟨deps, (hd n (h.read n hn)).trans hdeps⟩
  · rw [hr]
    exact hp
  · rw [hr]
    intro n t ht m
    rw [h.closure n t ht m, leadsTo (Table.mem_keys_iff_get?.mpr ⟨t, ht⟩)]
  · rw [hr]
    intro n t ht m
    rw [h.flag n t ht m, both (Table.mem_keys_iff_get?.mpr ⟨t, ht⟩)]
  · rw [hr, hc]
    intro n
    rw [h.circular n]
    exact and_congr_right fun hn => (leadsTo hn).symm
  · rw [hc]
    intro n c hnc
    have hn : n ∈ d.reached.keys :=
      ((h.circular n).mp (Table.mem_keys_iff_get?.mpr ⟨c, hnc⟩)).1
    obtain ⟨hnodup, hm⟩ := h.cycle n c hnc
    exact ⟨hnodup, fun m => (hm m).trans (both hn).symm⟩

/-- Where an edge out of a component leads, and the closure found there, is what is within reach of
it. -/
theorem mem_splice_iff (h : Invariant d) {dep k : TypeName} (hdep : dep ∈ d.reached.keys) :
    k = dep ∨ k ∈ ((d.reached.get? dep).getD ∅).keys ↔ d.cached.Reaches dep k := by
  obtain ⟨t, ht⟩ := Table.mem_keys_iff_get?.mp hdep
  rw [ht, Option.getD_some, h.closure dep t ht k]
  exact Relation.reflTransGen_iff_eq_or_transGen.symm

/-- The closure of a component holds just what its members lead to. -/
theorem mem_closureOf (h : Invariant d)
    (hc : d.cached.OnTop {n | n ∈ d.reached.keys} component)
    (hcyc : cyclic = true ↔ d.cached.HoldsCycle component) {n : TypeName} (hn : n ∈ component)
    (m : TypeName) :
    m ∈ (d.closureOf component cyclic).keys ↔ d.cached.LeadsTo n m := by
  rw [mem_keys_closureOf, hc.leadsTo_iff hn, hcyc]
  apply or_congr Iff.rfl
  constructor
  · rintro ⟨w, hw, dep, hdep, hnc, hm⟩
    have hd : dep ∈ d.reached.keys := (hc.closed w hw dep hdep).resolve_left hnc
    exact ⟨w, hw, dep, hdep, hnc, (h.mem_splice_iff hd).mp hm⟩
  · rintro ⟨w, hw, dep, hdep, hnc, hm⟩
    have hd : dep ∈ d.reached.keys := (hc.closed w hw dep hdep).resolve_left hnc
    exact ⟨w, hw, dep, hdep, hnc, (h.mem_splice_iff hd).mpr hm⟩

/-- Closing a component on top of what is closed. -/
theorem close (h : Invariant d) (hcl : Closable d component cyclic) :
    Invariant (d.close component cyclic) := by
  obtain ⟨hc, hread, hcyc⟩ := hcl
  constructor
  · intro n hn
    rw [direct_close]
    rcases (mem_reached_close n).mp hn with hn | hn
    · exact hread n hn
    · exact h.read n hn
  · intro n hn m hm
    rw [cached_close] at hm
    rw [mem_reached_close]
    rcases (mem_reached_close n).mp hn with hn | hn
    · exact hc.closed n hn m hm
    · exact Or.inr (h.closed n hn m hm)
  · intro n t ht m
    rw [cached_close]
    rw [get?_reached_close] at ht
    split at ht
    · next hn =>
      cases ht
      exact h.mem_closureOf hc hcyc hn m
    · exact h.closure n t ht m
  · intro n t ht m
    rw [cached_close]
    rw [get?_reached_close] at ht
    split at ht
    · next hn =>
      cases ht
      rw [get?_closureOf, hcyc, hc.mutual_iff hn]
    · exact h.flag n t ht m
  · intro n
    rw [cached_close, mem_reached_close, Table.mem_keys_iff_get?, get?_cycles_close]
    by_cases hn : n ∈ component
    · -- A new member is in no cycle that was known before.
      have hnew : d.cycles.get? n = none := by
        rw [Table.get?_eq_none_iff, h.circular]
        exact fun hm => hc.fresh n hn hm.1
      rw [hc.leadsTo_self_iff hn, ← hcyc]
      cases cyclic <;> simp [hn, hnew]
    · rw [if_neg fun hm => hn hm.2, ← Table.mem_keys_iff_get?, h.circular, or_iff_right hn]
  · intro n c hnc
    rw [cached_close]
    rw [get?_cycles_close] at hnc
    split at hnc
    · next hn =>
      cases hnc
      refine ⟨hc.nodup, fun m => ?_⟩
      rw [hc.mutual_iff hn.2, ← hcyc]
      exact (and_iff_right hn.1).symm
    · exact h.cycle n c hnc

end Invariant

end TypeAlias.Dependencies
