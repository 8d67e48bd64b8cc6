import TypeAlias.Environment

/-!
# Registrations

An environment is changed in place by registrations, one after the other. A module alias is written
before what is declared moves to its new canonical names, and it is taken out again when that fails.
-/

namespace TypeAlias

/-- Something to be registered in an environment. -/
inductive Registration where
  /-- An alias is declared. -/
  | declare (decl : AliasDecl)
  /-- A module is known under a new path, besides the old one. -/
  | identify (new old : TypeName)

namespace Environment

/-- The environment with a module alias, where nothing has moved yet. -/
def withModule (env : Environment) (new old : TypeName) : Environment :=
  { env with modules := env.modules.insert new.path old.path }

/-- The environment with a module alias taken out. -/
def withoutModule (env : Environment) (new : TypeName) : Environment :=
  { env with modules := env.modules.erase new.path }

/-- Goes over to the environment that something comes to, unless it fails. -/
def commit (env : Environment) (result : Except RegistrationError Environment) :
    Except RegistrationError Unit × Environment :=
  match result with
  | .error e => (.error e, env)
  | .ok env => (.ok (), env)

/-- Declares an alias in place; nothing is written before it is known to be new. -/
def declare (env : Environment) (decl : AliasDecl) : Except RegistrationError Unit × Environment :=
  env.commit (env.addAlias decl)

/-- Registers a module alias in place. -/
def identify (env : Environment) (new old : TypeName) :
    Except RegistrationError Unit × Environment :=
  if env.modules.contains new.path then (.error (.duplicate new), env)
  else
    let extended := env.withModule new old
    match redeclare { extended with aliases := ∅ } extended.aliases.values with
    | .error e => (.error e, extended.withoutModule new)
    | .ok moved => (.ok (), { extended with aliases := moved.aliases })

/-- Registers something in place. -/
def register (env : Environment) : Registration → Except RegistrationError Unit × Environment
  | .declare decl => env.declare decl
  | .identify new old => env.identify new old

/-- The environment after some registrations, whether they succeed or fail. -/
def registerAll (env : Environment) (rs : List Registration) : Environment :=
  rs.foldl (fun env r => (env.register r).2) env

end Environment

end TypeAlias
