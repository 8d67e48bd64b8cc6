import TypeAlias.TypeExpr

/-!
# Types as documents write them

A type in a document differs from a type expression in that names keep the text they were written
with, and in that a function may leave out what it returns; it returns `void` then. Every type in a
document is well formed: its names can be read, and unions and intersections have members.
-/

namespace TypeAlias.Definitions

/-- The text of a name, and the name. -/
structure WrittenName where
  text : String
  name : TypeName
  parse_text : TypeName.parse? text = some name
  deriving DecidableEq

/-- The text of an alias name, and the name. -/
structure WrittenAliasName extends WrittenName where
  kind_name : name.kind = .aliasName
  deriving DecidableEq

/-- A type as a document writes it. -/
inductive TypeNode where
  | base (name : String)
  | parameter (name : String)
  | literal (value : Literal)
  | classSingleton (name : WrittenName)
  | classInstance (name : WrittenName) (args : List TypeNode)
  | interface (name : WrittenName) (args : List TypeNode)
  | aliasInstance (name : WrittenAliasName) (args : List TypeNode)
  | union (first : TypeNode) (others : List TypeNode)
  | intersection (first : TypeNode) (others : List TypeNode)
  | optional (type : TypeNode)
  | tuple (types : List TypeNode)
  | record (fields : List (String × TypeNode))
  | function (signature : Signature TypeNode (Option TypeNode))
  | block (block : Block TypeNode (Option TypeNode))
  | proc (signature : Signature TypeNode (Option TypeNode))
      (block : Option (Block TypeNode (Option TypeNode)))

instance : Inhabited TypeNode := ⟨.base ""⟩

/-- What a function returns when it does not say. -/
def voidType : TypeExpr :=
  .base "void"

namespace TypeNode

mutual

/-- The type expression that is written. -/
def toType : TypeNode → TypeExpr
  | base name => .base name
  | parameter name => .parameter name
  | literal value => .literal value
  | classSingleton name => .classSingleton name.name
  | classInstance name args => .classInstance name.name (toTypes args)
  | interface name args => .interface name.name (toTypes args)
  | aliasInstance name args => .aliasInstance name.name (toTypes args)
  | union first others => .union (first.toType :: toTypes others)
  | intersection first others => .intersection (first.toType :: toTypes others)
  | optional type => .optional type.toType
  | tuple types => .tuple (toTypes types)
  | record fields => .record (toFields fields)
  | function signature => .function (toSignature signature)
  | block b => .block (toBlock b)
  | proc signature b => .proc (toSignature signature) (toBlock? b)

/-- The type expressions that are written. -/
def toTypes : List TypeNode → List TypeExpr
  | [] => []
  | node :: nodes => node.toType :: toTypes nodes

/-- The named type expressions that are written. -/
def toFields : List (String × TypeNode) → List (String × TypeExpr)
  | [] => []
  | (name, node) :: fields => (name, node.toType) :: toFields fields

/-- The type expression that may be written. -/
def toType? : Option TypeNode → Option TypeExpr
  | none => none
  | some node => some node.toType

/-- The signature that is written. -/
def toSignature : Signature TypeNode (Option TypeNode) → Signature TypeExpr TypeExpr
  | ⟨req, opt, rest, kws, ret⟩ =>
    ⟨toTypes req, toTypes opt, toType? rest, toFields kws, (toType? ret).getD voidType⟩

/-- The block that is written. -/
def toBlock : Block TypeNode (Option TypeNode) → Block TypeExpr TypeExpr
  | ⟨s, req⟩ => ⟨toSignature s, req⟩

/-- The block that may be written. -/
def toBlock? : Option (Block TypeNode (Option TypeNode)) → Option (Block TypeExpr TypeExpr)
  | none => none
  | some b => some (toBlock b)

end

end TypeNode

end TypeAlias.Definitions
