import TypeAlias.ErrorClass
import TypeAlias.ModuleAliases
import TypeAlias.TypeExpr

/-!
# Environments

An environment holds alias declarations under their canonical names: absolute names whose namespace
no module alias rewrites any further. A name can be written in several ways; looking it up tries the
namespaces around the place where it is written, innermost first, and rewrites each.
-/

namespace TypeAlias

/-- Why a name stands for no declared alias. -/
inductive LookupError where
  /-- Nothing is declared under the name. -/
  | undefined (name : TypeName)
  /-- The module aliases rewrite the namespace of the name in a circle. -/
  | moduleLoop (name : TypeName)
  deriving DecidableEq

/-- What is said of a name that stands for no declared alias. -/
def LookupError.message : LookupError → String
  | undefined name => "Unknown entity " ++ name.toString ++ ": no definition"
  | moduleLoop name => "Unknown entity " ++ name.toString ++ ": module alias loop"

/-- Why something cannot be registered. -/
inductive RegistrationError where
  /-- The name is taken. -/
  | duplicate (name : TypeName)
  /-- The module aliases rewrite the namespace of the name in a circle. -/
  | moduleLoop (name : TypeName)
  deriving DecidableEq

/-- What is said of something that cannot be registered. -/
def RegistrationError.message : RegistrationError → String
  | duplicate name => "Duplicate declaration: " ++ name.toString
  | moduleLoop name => (LookupError.moduleLoop name).message

/-- The class of the error. -/
def RegistrationError.errorClass : RegistrationError → ErrorClass
  | duplicate _ => .duplicateDeclaration
  | moduleLoop _ => .unknownEntity

/-- Declared aliases under their canonical names, and module aliases. -/
structure Environment where
  aliases : Table TypeName AliasDecl := ∅
  modules : ModuleAliases := ∅

instance : Inhabited Environment := ⟨{}⟩

namespace Environment

/-- The canonical names of the declared aliases, in order of declaration. -/
def aliasNames (env : Environment) : List TypeName :=
  env.aliases.keys

/-- The number of declared aliases. -/
def size (env : Environment) : Nat :=
  env.aliases.size

/-- The absolute name that a name stands for, or none in case of a loop. -/
def rewrite? (env : Environment) (name : TypeName) : Option TypeName :=
  (env.modules.rewrite? name.scope).map name.inScope

/-- Declares an alias under its canonical name. -/
def addAlias (env : Environment) (decl : AliasDecl) : Except RegistrationError Environment :=
  let name := decl.name.toAbsolute
  match env.rewrite? name with
  | none => .error (.moduleLoop name)
  | some key =>
    if env.aliases.contains key then .error (.duplicate key)
    else .ok { env with aliases := env.aliases.insert key { decl with name := key } }

/-- Declares aliases again, in order, each under the name it has now. -/
def redeclare (env : Environment) : List AliasDecl → Except RegistrationError Environment
  | [] => .ok env
  | decl :: decls =>
    match env.rewrite? decl.name with
    | none => .error (.moduleLoop decl.name)
    | some key =>
      if env.aliases.contains key then .error (.duplicate key)
      else
        redeclare { env with aliases := env.aliases.insert key { decl with name := key } } decls

/-- Registers a module alias. What is declared already moves to its new canonical name; when that
fails, nothing is registered. -/
def addModuleAlias (env : Environment) (new old : TypeName) :
    Except RegistrationError Environment :=
  if env.modules.contains new.path then .error (.duplicate new)
  else
    redeclare { aliases := ∅, modules := env.modules.insert new.path old.path } env.aliases.values

/-- The environment of some module aliases and some declarations, the former registered first. -/
def build (modules : List (TypeName × TypeName)) (decls : List AliasDecl) :
    Except RegistrationError Environment := do
  let env ← modules.foldlM (fun env m => env.addModuleAlias m.1 m.2) {}
  decls.foldlM addAlias env

/-- The declaration under exactly a given name. -/
def aliasDecl (env : Environment) (name : TypeName) : Except LookupError AliasDecl :=
  match env.aliases.get? name with
  | none => .error (.undefined name)
  | some decl => .ok decl

/-- The names that a written name may stand for in a context, innermost namespace first. -/
def candidates (name : TypeName) (context : Path) : List TypeName :=
  if name.absolute then [name]
  else
    (List.range (context.length + 1)).reverse.map fun n =>
      name.inScope (context.take n ++ name.scope)

/-- The first candidate that is declared; a loop ends the search. -/
def normalizeFirst (env : Environment) (name : TypeName) :
    List TypeName → Except LookupError TypeName
  | [] => .error (.undefined name)
  | candidate :: rest =>
    match env.rewrite? candidate with
    | none => .error (.moduleLoop candidate)
    | some key => if env.aliases.contains key then .ok key else env.normalizeFirst name rest

/-- The canonical name of a written name. -/
def normalize (env : Environment) (name : TypeName) (context : Path := []) :
    Except LookupError TypeName :=
  env.normalizeFirst name (candidates name context)

/-- The canonical name of a candidate that is declared. -/
def declared? (env : Environment) (candidate : TypeName) : Option TypeName :=
  (env.rewrite? candidate).filter env.aliases.contains

/-- The canonical name of a written name; candidates that run into a loop are passed over. -/
def resolve? (env : Environment) (name : TypeName) (context : Path := []) : Option TypeName :=
  (candidates name context).findSome? env.declared?

/-- What a name resolves to is declared. -/
theorem mem_aliasNames_of_resolve? {env : Environment} {name target : TypeName} {context : Path}
    (h : env.resolve? name context = some target) : target ∈ env.aliasNames := by
  obtain ⟨c, _, hc⟩ := List.exists_of_findSome?_eq_some h
  exact Table.contains_iff.mp (Option.filter_eq_some_iff.mp hc).2

/-- The candidates that `resolve?` passes over because they run into a loop. -/
def loopsPassed (env : Environment) (name : TypeName) (context : Path := []) : List TypeName :=
  ((candidates name context).takeWhile fun c => (env.declared? c).isNone).filter
    fun c => (env.rewrite? c).isNone

/-- Whether a name stands for a declared alias. -/
def contains (env : Environment) (name : TypeName) : Bool :=
  (env.resolve? name).isSome

end Environment

end TypeAlias
