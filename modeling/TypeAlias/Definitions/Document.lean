import TypeAlias.Definitions.TypeNode
import TypeAlias.Environment

/-!
# Definitions documents

A document declares module aliases and type aliases. Alias names are meant from the top level.
-/

namespace TypeAlias.Definitions

/-- A module alias in a document. -/
structure ModuleEntry where
  name : WrittenName
  target : WrittenName

/-- A type alias in a document. -/
structure AliasEntry where
  name : WrittenAliasName
  params : List String := []
  type : TypeNode

/-- A definitions document. -/
structure Document where
  modules : List ModuleEntry := []
  aliases : List AliasEntry := []

/-- The declaration that an entry makes. -/
def AliasEntry.toDecl (e : AliasEntry) : AliasDecl where
  name := e.name.name.toAbsolute
  type := e.type.toType
  params := e.params

namespace Document

/-- The environment that a document describes. -/
def toEnvironment (d : Document) : Except RegistrationError Environment :=
  Environment.build (d.modules.map fun e => (e.name.name, e.target.name))
    (d.aliases.map AliasEntry.toDecl)

end Document

end TypeAlias.Definitions
