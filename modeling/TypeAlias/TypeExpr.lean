import TypeAlias.TypeName

/-!
# Type expressions

The right-hand sides of alias declarations. The direct sub-expressions of an expression are its
children, in the order in which they are written.
-/

namespace TypeAlias

/-- A value that stands for the type of just itself. -/
inductive Literal where
  | str (s : String)
  | int (i : Int)
  | bool (b : Bool)
  deriving DecidableEq

namespace Literal

/-- The text of the value. -/
def text : Literal → String
  | str s => s
  | int i => toString i
  | bool true => "True"
  | bool false => "False"

end Literal

/-- The parameters and the result of a function, with parts of type `τ` and a result of type `ρ`. -/
structure Signature (τ ρ : Type) where
  required : List τ := []
  optional : List τ := []
  rest : Option τ := none
  keywords : List (String × τ) := []
  returns : ρ

namespace Signature

variable {τ ρ : Type}

/-- The parameters in the order in which they are written. -/
def parameters (s : Signature τ ρ) : List τ :=
  s.required ++ s.optional ++ s.rest.toList ++ s.keywords.map Prod.snd

end Signature

/-- A block that a function takes. -/
structure Block (τ ρ : Type) where
  signature : Signature τ ρ
  required : Bool := true

/-- A type expression. -/
inductive TypeExpr where
  /-- A built-in type. -/
  | base (name : String)
  /-- A type parameter. -/
  | parameter (name : String)
  | literal (value : Literal)
  /-- The class itself. -/
  | classSingleton (name : TypeName)
  | classInstance (name : TypeName) (args : List TypeExpr)
  | interface (name : TypeName) (args : List TypeExpr)
  /-- A reference to a type alias. -/
  | aliasInstance (name : TypeName) (args : List TypeExpr)
  | union (types : List TypeExpr)
  | intersection (types : List TypeExpr)
  | optional (type : TypeExpr)
  | tuple (types : List TypeExpr)
  | record (fields : List (String × TypeExpr))
  | function (signature : Signature TypeExpr TypeExpr)
  | block (block : Block TypeExpr TypeExpr)
  | proc (signature : Signature TypeExpr TypeExpr) (block : Option (Block TypeExpr TypeExpr))

instance : Inhabited TypeExpr := ⟨.base ""⟩

namespace TypeExpr

/-- The direct sub-expressions, in the order in which they are written. -/
def children : TypeExpr → List TypeExpr
  | base _ | parameter _ | literal _ | classSingleton _ => []
  | classInstance _ args | interface _ args | aliasInstance _ args => args
  | union types | intersection types | tuple types => types
  | optional type => [type]
  | record fields => fields.map Prod.snd
  | function s => s.parameters ++ [s.returns]
  | block b => [function b.signature]
  | proc s b => function s :: b.toList.map block

/-- The alias that an expression refers to itself, its sub-expressions aside. -/
def reference? : TypeExpr → Option TypeName
  | aliasInstance name _ => some name
  | _ => none

/-- Whether a reference below an expression is productive, so that a recursion through it does not
make an alias circular. -/
def guards : TypeExpr → Bool
  | classInstance .. | interface .. | aliasInstance .. | tuple _ | record _ | function _ | block _
  | proc .. => true
  | base _ | parameter _ | literal _ | classSingleton _ | union _ | intersection _ | optional _ =>
    false

theorem sizeOf_lt_of_mem_fields {c : TypeExpr} {fs : List (String × TypeExpr)}
    (h : c ∈ fs.map Prod.snd) : sizeOf c < sizeOf fs := by
  obtain ⟨⟨k, t⟩, hf, rfl⟩ := List.mem_map.1 h
  have := List.sizeOf_lt_of_mem hf
  rw [Prod.mk.sizeOf_spec] at this
  show sizeOf t < sizeOf fs
  omega

theorem sizeOf_lt_of_mem_signature {c : TypeExpr} {s : Signature TypeExpr TypeExpr}
    (h : c ∈ s.parameters ++ [s.returns]) : sizeOf c < sizeOf s := by
  obtain ⟨req, opt, rest, kws, ret⟩ := s
  simp only [Signature.parameters, List.mem_append, List.mem_singleton, Option.mem_toList] at h
  rw [Signature.mk.sizeOf_spec]
  rcases h with (((h | h) | h) | h) | rfl
  · have := List.sizeOf_lt_of_mem h
    omega
  · have := List.sizeOf_lt_of_mem h
    omega
  · cases h
    rw [Option.some.sizeOf_spec]
    omega
  · have := sizeOf_lt_of_mem_fields h
    omega
  · omega

/-- A child is smaller than the expression. -/
theorem sizeOf_lt_of_mem_children {t c : TypeExpr} (h : c ∈ t.children) : sizeOf c < sizeOf t := by
  cases t with
  | base | parameter | literal | classSingleton => exact absurd h (List.not_mem_nil)
  | classInstance | interface | aliasInstance | union | intersection | tuple =>
    have := List.sizeOf_lt_of_mem h
    simp only [children, classInstance.sizeOf_spec, interface.sizeOf_spec,
      aliasInstance.sizeOf_spec, union.sizeOf_spec, intersection.sizeOf_spec,
      tuple.sizeOf_spec] at this ⊢
    omega
  | optional =>
    rw [children, List.mem_singleton] at h
    rw [h, optional.sizeOf_spec]
    omega
  | record =>
    have := sizeOf_lt_of_mem_fields h
    rw [record.sizeOf_spec]
    omega
  | function =>
    have := sizeOf_lt_of_mem_signature h
    rw [function.sizeOf_spec]
    omega
  | block b =>
    obtain ⟨s, r⟩ := b
    rw [children, List.mem_singleton] at h
    rw [h, block.sizeOf_spec, function.sizeOf_spec, Block.mk.sizeOf_spec]
    dsimp only
    omega
  | proc s b =>
    cases b with
    | none =>
      rw [children, Option.toList, List.map_nil, List.mem_singleton] at h
      rw [h, proc.sizeOf_spec, function.sizeOf_spec, Option.none.sizeOf_spec]
      omega
    | some b =>
      simp only [children, Option.toList, List.map_cons, List.map_nil, List.mem_cons,
        List.not_mem_nil, or_false] at h
      rcases h with rfl | rfl
      · rw [proc.sizeOf_spec, function.sizeOf_spec, Option.some.sizeOf_spec]
        omega
      · rw [proc.sizeOf_spec, block.sizeOf_spec, Option.some.sizeOf_spec]
        omega

/-- All expressions in an expression, itself first, and each before its sub-expressions. -/
def preorder (t : TypeExpr) : List TypeExpr :=
  t :: t.children.attach.flatMap fun c => c.1.preorder
termination_by sizeOf t
decreasing_by exact sizeOf_lt_of_mem_children c.2

theorem preorder_eq (t : TypeExpr) : t.preorder = t :: t.children.flatMap preorder := by
  rw [preorder, List.flatMap_subtype fun _ _ => rfl, List.unattach_attach]

end TypeExpr

/-- The declaration of an alias. -/
structure AliasDecl where
  name : TypeName
  type : TypeExpr
  params : List String := []

namespace AliasDecl

/-- The namespace in which the right-hand side is read. -/
def context (d : AliasDecl) : List String :=
  d.name.scope

end AliasDecl

end TypeAlias
