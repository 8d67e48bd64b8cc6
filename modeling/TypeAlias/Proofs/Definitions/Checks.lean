import TypeAlias.Definitions.Validation

/-!
# What checks make sure of

A check that is put together of others makes sure of something when they do. All types that are
members of a type have been checked themselves, with room for one level less; so what has been
accepted is nested to a bounded depth.
-/

namespace TypeAlias

/-- What is in the table of some pairs is the value of one of them. -/
theorem Table.exists_mem_of_mem_ofList {κ ν : Type} [DecidableEq κ] {es : List (κ × ν)} {e : κ × ν}
    (he : e ∈ (Table.ofList es).entries) : ∃ e' ∈ es, e'.2 = e.2 := by
  have collect (t : Table κ ν) (h : e ∈ (es.foldl (fun t e => t.insert e.1 e.2) t).entries) :
      e ∈ t.entries ∨ ∃ e' ∈ es, e'.2 = e.2 := by
    clear he
    induction es generalizing t with
    | nil => exact Or.inl h
    | cons e' es ih =>
      rcases ih (t.insert e'.1 e'.2) h with h | ⟨e'', h, hv⟩
      · rw [← get?_eq_some_iff, get?_insert] at h
        split at h
        · exact Or.inr ⟨e', List.mem_cons_self, Option.some_inj.mp h⟩
        · exact Or.inl (get?_eq_some_iff.mp h)
      · exact Or.inr ⟨e'', List.mem_cons_of_mem _ h, hv⟩
  exact (collect empty he).resolve_left List.not_mem_nil

namespace Definitions

open Data

namespace Checked

variable {α β : Type} {a : α} {b : β}

theorem map_eq_valid {f : α → β} {c : Checked α} :
    f <$> c = .valid b ↔ ∃ a, c = .valid a ∧ f a = b := by
  cases c with
  | valid a =>
    show Checked.valid (f a) = _ ↔ _
    simp
  | invalid is =>
    show Checked.invalid is = _ ↔ _
    simp

theorem seq_eq_valid {f : Checked (α → β)} {c : Checked α} :
    f <*> c = .valid b ↔ ∃ g, f = .valid g ∧ ∃ a, c = .valid a ∧ g a = b := by
  show f.apply c = _ ↔ _
  cases f <;> cases c <;> simp [apply]

theorem inPlace_eq_valid {place : Place} {c : Checked α} :
    c.inPlace place = .valid a ↔ c = .valid a := by
  cases c <;> simp [inPlace]

theorem atMember_eq_valid {name : String} {c : Checked α} :
    c.atMember name = .valid a ↔ c = .valid a :=
  inPlace_eq_valid

theorem fail_ne_valid {found : Part} {problem : Problem} :
    (fail found problem : Checked α) ≠ .valid a := by
  rintro ⟨⟩

theorem all_eq_valid {cs : List (Checked α)} {as : List α} :
    all cs = .valid as ↔ cs = as.map .valid := by
  induction cs generalizing as with
  | nil => cases as <;> simp [all]
  | cons c cs ih =>
    show (List.cons <$> c) <*> all cs = _ ↔ _
    rw [seq_eq_valid]
    constructor
    · rintro ⟨_, hc, as', has, rfl⟩
      obtain ⟨a, rfl, rfl⟩ := map_eq_valid.mp hc
      rw [ih.mp has, List.map_cons]
    · intro h
      cases as with
      | nil => cases h
      | cons a as =>
        rw [List.map_cons, List.cons.injEq] at h
        exact ⟨_, map_eq_valid.mpr ⟨a, h.1, rfl⟩, as, ih.mpr h.2, rfl⟩

end Checked

namespace Validation

open Checked

variable {α β : Type} {P : α → Prop} {check : Part → Checked α} {p : Part} {o : Object}
  {name : String} {a : α}

/-- Whatever a check accepts has a property. -/
def Ensures (P : α → Prop) (check : β → Checked α) : Prop :=
  ∀ b a, check b = .valid a → P a

theorem member_eq_valid (h : member o name check = .valid a) : ∃ p, check p = .valid a := by
  unfold member at h
  split at h
  · exact absurd (atMember_eq_valid.mp h) fail_ne_valid
  · exact ⟨_, atMember_eq_valid.mp h⟩

theorem memberOr_eq_valid {absent : α} (h : memberOr o name absent check = .valid a) :
    a = absent ∨ ∃ p, check p = .valid a := by
  unfold memberOr at h
  split at h
  · cases h
    exact Or.inl rfl
  · exact Or.inr ⟨_, atMember_eq_valid.mp h⟩

theorem Ensures.member (hc : Ensures P check) (h : member o name check = .valid a) : P a := by
  obtain ⟨p, hp⟩ := member_eq_valid h
  exact hc p a hp

/-- A member that is absent has its default. -/
theorem Ensures.memberOr {absent : α} (hc : Ensures P check) (ha : P absent)
    (h : memberOr o name absent check = .valid a) : P a := by
  rcases memberOr_eq_valid h with rfl | ⟨p, hp⟩
  · exact ha
  · exact hc p a hp

theorem Ensures.items (hc : Ensures P check) {ps : List Part} {start : Nat} {as : List α}
    (h : Checked.all (items check ps start) = .valid as) : ∀ a ∈ as, P a := by
  intro a ha
  have hmem : Checked.valid a ∈ Validation.items check ps start := by
    rw [all_eq_valid.mp h]
    exact List.mem_map_of_mem ha
  obtain ⟨i, hi, he⟩ := List.mem_mapIdx.mp hmem
  exact hc _ a (inPlace_eq_valid.mp he)

theorem Ensures.listOf (hc : Ensures P check) :
    Ensures (fun as => ∀ a ∈ as, P a) (listOf check) := by
  intro p as h
  unfold Validation.listOf at h
  split at h
  · exact hc.items h
  · cases h

theorem Ensures.listOfSome (hc : Ensures P check) :
    Ensures (fun as => ∀ a ∈ as.1 :: as.2, P a) (listOfSome check) := by
  intro p as h
  unfold Validation.listOfSome at h
  split at h
  · cases h
  · obtain ⟨_, hpair, others, hothers, rfl⟩ := seq_eq_valid.mp h
    obtain ⟨first, hfirst, rfl⟩ := map_eq_valid.mp hpair
    exact List.forall_mem_cons.mpr
      ⟨hc _ _ (inPlace_eq_valid.mp hfirst), hc.items hothers⟩
  · cases h

theorem Ensures.nullable (hc : Ensures P check) :
    Ensures (fun a? => ∀ a ∈ a?, P a) (nullable check) := by
  intro p a? h a ha
  unfold Validation.nullable at h
  split at h
  · cases h
    cases ha
  · obtain ⟨a', hp, rfl⟩ := map_eq_valid.mp h
    cases ha
    exact hc p a hp

theorem Ensures.mappingOf (hc : Ensures P check) :
    Ensures (fun es => ∀ e ∈ es, P e.2) (mappingOf check) := by
  intro p es h e he
  unfold Validation.mappingOf at h
  split at h
  · obtain ⟨entries, hentries, rfl⟩ := map_eq_valid.mp h
    obtain ⟨e', he', hv⟩ := Table.exists_mem_of_mem_ofList he
    have hmem : Checked.valid e' ∈ entries.map Checked.valid := List.mem_map_of_mem he'
    rw [← all_eq_valid.mp hentries] at hmem
    obtain ⟨⟨k, v⟩, -, hk⟩ := List.mem_map.mp hmem
    obtain ⟨_, hkey, x, hx, rfl⟩ := seq_eq_valid.mp (inPlace_eq_valid.mp hk)
    obtain ⟨_, -, rfl⟩ := map_eq_valid.mp hkey
    rw [← hv]
    exact hc v x hx
  · cases h

theorem Ensures.object {origin : Origin} {model : String} {check : Object → Checked α}
    (hc : Ensures P check) : Ensures P (object origin model check) := by
  intro p a h
  unfold Validation.object at h
  split at h
  · exact hc _ a h
  · exact absurd h fail_ne_valid

end Validation

/-! ## Types -/

namespace TypeNode

/-- The types that are members of a type. A function is a member where nothing else can stand, and
so is a block. -/
def members : TypeNode → List TypeNode
  | base _ | parameter _ | literal _ | classSingleton _ => []
  | classInstance _ args | interface _ args | aliasInstance _ args => args
  | union first others | intersection first others => first :: others
  | optional type => [type]
  | tuple types => types
  | record fields => fields.map Prod.snd
  | function s => s.parameters ++ s.returns.toList
  | block b => [function b.signature]
  | proc s b => function s :: b.toList.map block

/-- A type is nested no deeper than there is room for. -/
def FitsIn : Nat → TypeNode → Prop
  | 0, _ => False
  | room + 1, t => ∀ m ∈ t.members, m.FitsIn room

end TypeNode

namespace Validation

open Checked

variable {P : TypeNode → Prop} {o : Object}

/-- Whatever types are accepted as members have a property. -/
structure TypeChecks.Ensure (checks : TypeChecks) (P : TypeNode → Prop) : Prop where
  type : Ensures P checks.type
  function : Ensures (fun s => P (.function s)) checks.function
  block : Ensures (fun b => P (.block b)) checks.block

theorem ensures_signature {type : Part → Checked TypeNode} (hc : Ensures P type) :
    Ensures (fun s => ∀ m ∈ (TypeNode.function s).members, P m) (signature type) := by
  intro o s h
  simp only [signature, seq_eq_valid, map_eq_valid] at h
  obtain ⟨_, ⟨_, ⟨_, ⟨_, ⟨_, ⟨_, -, rfl⟩, required, hrequired, rfl⟩, optional, hoptional, rfl⟩, rest,
    hrest, rfl⟩, keywords, hkeywords, rfl⟩, returns, hreturns, rfl⟩ := h
  have hnone : ∀ t ∈ (none : Option TypeNode), P t := fun _ ht => by cases ht
  have hnil : ∀ t ∈ ([] : List TypeNode), P t := fun _ ht => absurd ht List.not_mem_nil
  intro m hm
  simp only [TypeNode.members, Signature.parameters, List.mem_append, Option.mem_toList,
    List.mem_map] at hm
  rcases hm with (((hm | hm) | hm) | ⟨e, he, rfl⟩) | hm
  · exact hc.listOf.memberOr hnil hrequired m hm
  · exact hc.listOf.memberOr hnil hoptional m hm
  · exact hc.nullable.memberOr hnone hrest m hm
  · exact hc.mappingOf.memberOr (fun _ he => absurd he List.not_mem_nil) hkeywords e he
  · exact hc.nullable.memberOr hnone hreturns m hm

theorem ensures_block {function : Part → Checked SignatureNode}
    (hc : Ensures (fun s => P (.function s)) function) :
    Ensures (fun b => ∀ m ∈ (TypeNode.block b).members, P m) (block function) := by
  intro o b h
  simp only [block, seq_eq_valid, map_eq_valid] at h
  obtain ⟨_, ⟨_, ⟨_, -, rfl⟩, s, hs, rfl⟩, required, -, rfl⟩ := h
  intro m hm
  rw [List.mem_singleton.mp hm]
  exact hc.member hs

/-- A name with arguments, which may be absent. -/
theorem Ensures.arguments {α : Type} {f : α → List TypeNode → TypeNode} {name : Checked α}
    {type : Part → Checked TypeNode} {t : TypeNode} (hc : Ensures P type)
    (h : f <$> name <*> Validation.memberOr o "args" [] (Validation.listOf type) = .valid t) :
    ∃ a args, f a args = t ∧ ∀ m ∈ args, P m := by
  simp only [seq_eq_valid, map_eq_valid] at h
  obtain ⟨_, ⟨a, -, rfl⟩, args, hargs, rfl⟩ := h
  exact ⟨a, args, rfl, hc.listOf.memberOr (fun _ hm => absurd hm List.not_mem_nil) hargs⟩

/-- All members of a type of any kind have been checked. -/
theorem ensures_typeOfKind {checks : TypeChecks} (hc : checks.Ensure P) {kind : String}
    {t : TypeNode} (h : typeOfKind checks o kind = .valid t) : ∀ m ∈ t.members, P m := by
  have hnil : ∀ t ∈ ([] : List TypeNode), P t := fun _ ht => absurd ht List.not_mem_nil
  unfold typeOfKind at h
  dsimp only at h
  -- One case for each kind, in the order of the kinds: first those without members.
  split at h
  · obtain ⟨_, -, rfl⟩ := map_eq_valid.mp h
    exact hnil
  · obtain ⟨_, -, rfl⟩ := map_eq_valid.mp h
    exact hnil
  · obtain ⟨_, -, rfl⟩ := map_eq_valid.mp h
    exact hnil
  · obtain ⟨_, -, rfl⟩ := map_eq_valid.mp h
    exact hnil
  -- Then names with arguments.
  · obtain ⟨_, args, rfl, hargs⟩ := hc.type.arguments h
    exact hargs
  · obtain ⟨_, args, rfl, hargs⟩ := hc.type.arguments h
    exact hargs
  · obtain ⟨_, args, rfl, hargs⟩ := hc.type.arguments h
    exact hargs
  -- Unions and intersections are the only ones that must have members.
  · obtain ⟨types, htypes, rfl⟩ := map_eq_valid.mp h
    exact hc.type.listOfSome.member htypes
  · obtain ⟨types, htypes, rfl⟩ := map_eq_valid.mp h
    exact hc.type.listOfSome.member htypes
  · obtain ⟨type, htype, rfl⟩ := map_eq_valid.mp h
    intro m hm
    rw [List.mem_singleton.mp hm]
    exact hc.type.member htype
  · obtain ⟨types, htypes, rfl⟩ := map_eq_valid.mp h
    exact hc.type.listOf.memberOr hnil htypes
  · obtain ⟨fields, hfields, rfl⟩ := map_eq_valid.mp h
    intro m hm
    obtain ⟨e, he, rfl⟩ := List.mem_map.mp hm
    exact hc.type.mappingOf.memberOr (fun _ he => absurd he List.not_mem_nil) hfields e he
  -- Functions and blocks, and what holds them where nothing else can stand.
  · obtain ⟨s, hs, rfl⟩ := map_eq_valid.mp h
    exact ensures_signature hc.type o s hs
  · obtain ⟨b, hb, rfl⟩ := map_eq_valid.mp h
    exact ensures_block hc.function o b hb
  · simp only [seq_eq_valid, map_eq_valid] at h
    obtain ⟨_, ⟨s, hs, rfl⟩, b, hb, rfl⟩ := h
    intro m hm
    rcases List.mem_cons.mp hm with rfl | hm
    · exact hc.function.member hs
    · obtain ⟨b', hb', rfl⟩ := List.mem_map.mp hm
      exact hc.block.nullable.memberOr (fun _ hb => by cases hb) hb b' (Option.mem_toList.mp hb')
  · exact absurd h fail_ne_valid

/-- The checks of the members of a type, when a given number of types can still be nested in it. -/
def checksIn (origin : Origin) (room : Nat) (around : Around) : TypeChecks where
  type := typeIn origin room around
  function := functionIn origin room around
  block := blockIn origin room around

/-- A type is accepted when there is room for it and for its members. -/
theorem exists_typeOfKind {origin : Origin} {room : Nat} {around : Around} {p : Part} {t : TypeNode}
    (h : typeIn origin room around p = .valid t) :
    ∃ below, room = below + 1 ∧
      ∃ around o kind, typeOfKind (checksIn origin below around) o kind = .valid t := by
  unfold typeIn at h
  split at h
  · split at h
    · cases h
    · split at h
      · split at h
        · rw [atMember_eq_valid] at h
          split at h
          · cases h
          · split at h
            · cases h
            · exact ⟨_, rfl, _, _, _, h⟩
        · cases h
      · cases h
  · cases h

/-- What is accepted inside of other types is nested no deeper than there is room for. -/
theorem fitsIn_checksIn (origin : Origin) (room : Nat) (around : Around) :
    (checksIn origin room around).Ensure (TypeNode.FitsIn room) := by
  induction room generalizing around with
  | zero =>
    constructor
    · intro p t h
      obtain ⟨_, hroom, -⟩ := exists_typeOfKind h
      cases hroom
    · intro p s h
      unfold checksIn functionIn at h
      split at h <;> cases h
    · intro p b h
      unfold checksIn blockIn at h
      split at h <;> cases h
  | succ room ih =>
    constructor
    · intro p t h
      obtain ⟨_, hroom, _, o, kind, ht⟩ := exists_typeOfKind h
      cases hroom
      exact ensures_typeOfKind (ih _) ht
    · intro p s h
      unfold checksIn functionIn at h
      split at h
      · cases h
      · exact (ensures_signature (ih _).type).object p s h
    · intro p b h
      unfold checksIn blockIn at h
      split at h
      · cases h
      · exact (ensures_block (ih _).function).object p b h

theorem ensures_aliasEntry (origin : Origin) :
    Ensures (fun e : AliasEntry => e.type.FitsIn mostLevels) (aliasEntry origin) := by
  intro o e h
  simp only [aliasEntry, seq_eq_valid, map_eq_valid] at h
  obtain ⟨_, ⟨_, ⟨name, -, rfl⟩, params, -, rfl⟩, t, ht, rfl⟩ := h
  exact (fitsIn_checksIn origin mostLevels []).type.member ht

theorem ensures_document :
    Ensures (fun doc => ∀ e ∈ doc.aliases, e.type.FitsIn mostLevels) document := by
  intro p doc h
  unfold document at h
  split at h
  · cases h
    exact fun _ he => absurd he List.not_mem_nil
  · apply Ensures.object ?_ p doc h
    intro o doc h
    simp only [documentMembers, seq_eq_valid, map_eq_valid] at h
    obtain ⟨_, ⟨modules, -, rfl⟩, aliases, haliases, rfl⟩ := h
    exact (ensures_aliasEntry .file).object.listOf.memberOr
      (fun _ he => absurd he List.not_mem_nil) haliases

end Validation

/-- The types in a document that has been accepted are not nested too deeply. -/
theorem Document.fitsIn_of_ofPart {p : Part} {doc : Document} (h : Document.ofPart p = .ok doc) :
    ∀ e ∈ doc.aliases, e.type.FitsIn Validation.mostLevels := by
  have hvalid : Validation.document p = .valid doc := by
    unfold Document.ofPart Checked.toExcept at h
    split at h
    · next hd =>
      cases h
      exact hd
    · cases h
  exact Validation.ensures_document p doc hvalid

end Definitions

end TypeAlias
