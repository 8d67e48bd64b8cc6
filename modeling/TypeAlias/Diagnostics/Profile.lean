import TypeAlias.Diagnostics

/-!
# Profiles of aliases

Everything there is to say about the dependencies of one alias, names sorted by their written form.
-/

namespace TypeAlias

/-- The dependencies of an alias. -/
structure Profile where
  direct : List TypeName
  transitive : List TypeName
  circular : Bool
  cycle : List TypeName
  deriving DecidableEq

/-- The profile of the alias with a written name. -/
def Query.profile (text : String) (env : Environment) : Query Profile := do
  let name ← name text
  let direct ← directDependencies env name
  let transitive ← dependencies env name
  let circular ← isCircular env name
  let cycle ← cycle env name
  return { direct := sortByText direct, transitive := sortByText transitive, circular, cycle }

end TypeAlias
