import Mathlib.Data.List.Flatten
import Mathlib.Data.List.Perm.Basic
import TypeAlias.Proofs.Definitions.Accepted

/-!
# Conversions are complete

Converting a type of a document loses nothing. Every type in it is converted, in the order in which
they are written, and says the same as before; its sub-expressions are what its members are
converted to. Nothing is added, apart from `void` as the result of a function that does not say its
result.
-/

namespace TypeAlias

namespace Signature

variable {τ τ' ρ ρ' : Type}

/-- A signature with other parts in the same places. -/
def map (f : τ → τ') (g : ρ → ρ') (s : Signature τ ρ) : Signature τ' ρ' where
  required := s.required.map f
  optional := s.optional.map f
  rest := s.rest.map f
  keywords := s.keywords.map fun e => (e.1, f e.2)
  returns := g s.returns

/-- The places of a signature: how many parameters there are of which sort, and the keywords. -/
def places (s : Signature τ ρ) : Signature Unit Unit :=
  s.map (fun _ => ()) fun _ => ()

/-- Putting other parts in the same places leaves the places as they are. -/
theorem places_map (f : τ → τ') (g : ρ → ρ') (s : Signature τ ρ) :
    (s.map f g).places = s.places := by
  simp [places, map, Function.comp_def]

end Signature

/-- What an expression says itself, its sub-expressions aside. -/
inductive TypeExpr.Label where
  | base (name : String)
  | parameter (name : String)
  | literal (value : Literal)
  | classSingleton (name : TypeName)
  | classInstance (name : TypeName)
  | interface (name : TypeName)
  | aliasInstance (name : TypeName)
  | union
  | intersection
  | optional
  | tuple
  | record (fields : List String)
  | function (places : Signature Unit Unit)
  | block (required : Bool)
  | proc

/-- The label of an expression. -/
def TypeExpr.label : TypeExpr → Label
  | base name => .base name
  | parameter name => .parameter name
  | literal value => .literal value
  | classSingleton name => .classSingleton name
  | classInstance name _ => .classInstance name
  | interface name _ => .interface name
  | aliasInstance name _ => .aliasInstance name
  | union _ => .union
  | intersection _ => .intersection
  | optional _ => .optional
  | tuple _ => .tuple
  | record fields => .record (fields.map Prod.fst)
  | function s => .function s.places
  | block b => .block b.required
  | proc _ _ => .proc

namespace Definitions.TypeNode

/-- The label of a type in a document. -/
def label : TypeNode → TypeExpr.Label
  | base name => .base name
  | parameter name => .parameter name
  | literal value => .literal value
  | classSingleton name => .classSingleton name.name
  | classInstance name _ => .classInstance name.name
  | interface name _ => .interface name.name
  | aliasInstance name _ => .aliasInstance name.name
  | union _ _ => .union
  | intersection _ _ => .intersection
  | optional _ => .optional
  | tuple _ => .tuple
  | record fields => .record (fields.map Prod.fst)
  | function s => .function s.places
  | block b => .block b.required
  | proc _ _ => .proc

/-- The alias that a type refers to itself, its members aside. -/
def reference? : TypeNode → Option WrittenAliasName
  | aliasInstance name _ => some name
  | _ => none

/-- What a member is converted to is a sub-expression. -/
theorem toType_mem_children {t m : TypeNode} (h : m ∈ t.members) :
    m.toType ∈ t.toType.children := by
  rw [children_toType]
  exact List.mem_append_left _ (List.mem_map_of_mem h)

/-- All types in a type, itself first, and each before its members. -/
def preorder (t : TypeNode) : List TypeNode :=
  t :: t.members.attach.flatMap fun m => m.1.preorder
termination_by sizeOf t.toType
decreasing_by exact TypeExpr.sizeOf_lt_of_mem_children (toType_mem_children m.2)

theorem preorder_eq (t : TypeNode) : t.preorder = t :: t.members.flatMap preorder := by
  rw [preorder, List.flatMap_subtype fun _ _ => rfl, List.unattach_attach]

/-- The sub-expressions of a type at every depth: those of its members, and what is implied. -/
theorem preorder_toType (t : TypeNode) : t.toType.preorder =
    t.toType :: ((t.members.flatMap fun m => m.toType.preorder) ++ t.implied) := by
  have hvoid : ∀ c ∈ t.implied, c.preorder = [c] := by
    intro c hc
    unfold implied at hc
    split at hc
    · rw [List.mem_singleton.mp hc, TypeExpr.preorder_eq]
      rfl
    · exact absurd hc List.not_mem_nil
  have himplied : t.implied.flatMap TypeExpr.preorder = t.implied := by
    rw [List.flatMap_congr hvoid, List.flatMap_singleton']
  rw [TypeExpr.preorder_eq, children_toType, List.flatMap_append, List.flatMap_map, himplied]

/-- Every type in a type is converted, in order. -/
theorem map_toType_preorder_sublist (t : TypeNode) :
    (t.preorder.map toType).Sublist t.toType.preorder := by
  induction t using preorder.induct with
  | case1 t ih =>
    rw [preorder_eq, List.map_cons, List.map_flatMap, preorder_toType]
    apply List.Sublist.cons_cons
    apply List.Sublist.trans _ (List.sublist_append_left _ _)
    exact List.Sublist.flatMap_right _ fun m hm => ih ⟨m, hm⟩

/-- All that comes out are the types in a type, each converted once, and what is implied. -/
theorem preorder_toType_perm (t : TypeNode) :
    t.toType.preorder.Perm (t.preorder.map toType ++ t.preorder.flatMap implied) := by
  induction t using preorder.induct with
  | case1 t ih =>
    have hmembers : (t.members.flatMap fun m => m.toType.preorder).Perm
        ((t.members.flatMap fun m => m.preorder.map toType) ++
          t.members.flatMap fun m => m.preorder.flatMap implied) :=
      (List.Perm.flatMap_left _ fun m hm => ih ⟨m, hm⟩).trans (List.flatMap_append_perm _ _ _).symm
    rw [preorder_eq, List.map_cons, List.map_flatMap, List.flatMap_cons, List.flatMap_assoc,
      preorder_toType, List.cons_append]
    apply List.Perm.cons
    apply (hmembers.append_right _).trans
    rw [List.append_assoc]
    exact List.perm_append_comm.append_left _

/-- The references that come out are the written ones, in order. -/
theorem references_toType (t : TypeNode) : t.toType.preorder.filterMap TypeExpr.reference? =
    (t.preorder.filterMap reference?).map fun name => name.name := by
  have hown (t : TypeNode) : t.toType.reference? = t.reference?.map fun name => name.name := by
    cases t <;> rfl
  have himplied (t : TypeNode) : t.implied.filterMap TypeExpr.reference? = [] := by
    unfold implied
    split <;> rfl
  induction t using preorder.induct with
  | case1 t ih =>
    have hmembers : (t.members.flatMap fun m => m.toType.preorder.filterMap TypeExpr.reference?) =
        t.members.flatMap fun m => (m.preorder.filterMap reference?).map fun name => name.name :=
      List.flatMap_congr fun m hm => ih ⟨m, hm⟩
    rw [preorder_toType, preorder_eq, List.filterMap_cons, List.filterMap_append, himplied,
      List.append_nil, List.filterMap_flatMap, hmembers, List.filterMap_cons, hown]
    cases t.reference? with
    | none => simp [List.filterMap_flatMap, List.map_flatMap]
    | some name => simp [List.filterMap_flatMap, List.map_flatMap]

theorem toType?_eq (t : Option TypeNode) : toType? t = t.map toType := by
  cases t <;> rfl

/-- A signature is converted part by part. -/
theorem toSignature_eq (s : Signature TypeNode (Option TypeNode)) :
    toSignature s = s.map toType fun t => (t.map toType).getD voidType := by
  obtain ⟨req, opt, rest, kws, ret⟩ := s
  rw [toSignature, toTypes_eq, toTypes_eq, toType?_eq, toFields_eq, toType?_eq]
  rfl

/-- A conversion keeps what a type says itself. -/
theorem label_toType (t : TypeNode) : t.toType.label = t.label := by
  cases t with
  | record fields => simp [toType, TypeExpr.label, label, toFields_eq]
  | function s =>
    rw [toType, TypeExpr.label, label, toSignature_eq, Signature.places_map]
  | block b =>
    obtain ⟨s, required⟩ := b
    rfl
  | _ => rfl

/-- A type expression keeps a type of a document as a whole. -/
structure KeptBy (t : TypeNode) (e : TypeExpr) : Prop where
  /-- Every type is there, in order. -/
  sublist : (t.preorder.map toType).Sublist e.preorder
  /-- Every type is there once, and else only what is implied. -/
  perm : e.preorder.Perm (t.preorder.map toType ++ t.preorder.flatMap implied)
  /-- Every type says the same as before. -/
  label : ∀ s ∈ t.preorder, s.toType.label = s.label
  /-- The members of every type are there, in order. -/
  children : ∀ s ∈ t.preorder, s.toType.children = s.members.map toType ++ s.implied
  /-- The references are those that can be read in the written names, in order. -/
  references : (e.preorder.filterMap TypeExpr.reference?).map some =
    (t.preorder.filterMap reference?).map fun name => TypeName.parse? name.text

theorem keptBy_toType (t : TypeNode) : t.KeptBy t.toType := by
  constructor
  case sublist => exact t.map_toType_preorder_sublist
  case perm => exact t.preorder_toType_perm
  case label => exact fun s _ => s.label_toType
  case children => exact fun s _ => s.children_toType
  case references =>
    rw [references_toType, List.map_map]
    exact List.map_congr_left fun name _ => name.parse_text.symm

/-- What fits fits with more room. -/
theorem FitsIn.succ {room : Nat} {t : TypeNode} (h : t.FitsIn room) : t.FitsIn (room + 1) := by
  induction room generalizing t with
  | zero => exact h.elim
  | succ room ih => exact fun m hm => ih (h m hm)

/-- All types in a type fit where it does. -/
theorem fitsIn_of_mem_preorder {room : Nat} {t s : TypeNode} (h : t.FitsIn room)
    (hs : s ∈ t.preorder) : s.FitsIn room := by
  induction room generalizing t with
  | zero => exact h.elim
  | succ room ih =>
    rw [preorder_eq] at hs
    rcases List.mem_cons.mp hs with rfl | hs
    · exact h
    · obtain ⟨m, hm, hs⟩ := List.mem_flatMap.mp hs
      exact (ih (h m hm) hs).succ

end Definitions.TypeNode

namespace Definitions

open Data Validation TypeNode

/-- Data that has been accepted as a type can be converted, and so can every type in it; and what
comes out keeps all of it. -/
theorem TypeNode.keptBy_of_type {origin : Origin} {p : Part} {t : TypeNode}
    (h : Validation.type origin p = .valid t) :
    ∃ e, t.readType mostLevels = .ok e ∧
      (∀ s ∈ t.preorder, s.readType mostLevels = .ok s.toType) ∧ t.KeptBy e := by
  have hfits : t.FitsIn mostLevels := (fitsIn_checksIn origin mostLevels []).type p t h
  have hread : ∀ s ∈ t.preorder, s.readType mostLevels = .ok s.toType := fun s hs =>
    (converts mostLevels).type s (fitsIn_of_mem_preorder hfits hs)
  exact ⟨t.toType, (converts mostLevels).type t hfits, hread, t.keptBy_toType⟩

/-- A type with members in all places, in which one function leaves out what it returns. -/
def manifoldType : Part :=
  .ofValue (.object [
    ("kind", .str "proc"),
    ("function", .object [
      ("required", .list [.object [("kind", .str "alias"), ("name", .str " ::A::first ")]]),
      ("optional", .list [.object [("kind", .str "base"), ("name", .str "bool")]]),
      ("rest", .object [("kind", .str "optional"), ("type", .object [
        ("kind", .str "alias"), ("name", .str "second"), ("args", .list [
          .object [("kind", .str "variable"), ("name", .str "T")]])])]),
      ("keywords", .object [("key", .object [
        ("kind", .str "record"), ("fields", .object [
          ("x", .object [("kind", .str "literal"), ("value", .str "1")])])])]),
      ("return_type", .object [("kind", .str "alias"), ("name", .str "third")])]),
    ("block", .object [("function", .object [
      ("required", .list [.object [("kind", .str "alias"), ("name", .str "fourth")]])])])])

theorem TypeNode.keptBy_of_type_manifold : ∃ t, Validation.type .file manifoldType = .valid t ∧
    ∃ e, t.readType mostLevels = .ok e ∧
      (∀ s ∈ t.preorder, s.readType mostLevels = .ok s.toType) ∧ t.KeptBy e := by
  have haccepted : (Validation.type .file manifoldType).toExcept.toOption.isSome = true := by
    decide +kernel
  cases ht : Validation.type .file manifoldType with
  | valid t => exact ⟨t, rfl, TypeNode.keptBy_of_type ht⟩
  | invalid issues =>
    rw [ht] at haccepted
    cases haccepted

end Definitions

end TypeAlias
