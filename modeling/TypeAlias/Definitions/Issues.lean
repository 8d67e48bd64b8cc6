import TypeAlias.Definitions.Checked

/-!
# Issues as data

The values under which issues are published.
-/

namespace TypeAlias.Definitions

open Data

/-- The value of a step. -/
def Place.toValue : Place → Value
  | member name => .str name
  | item index => .scalar (.int index)

/-- The value of an issue. -/
def Issue.toValue (i : Issue) : Value :=
  .object [("type", .str i.problem.code), ("loc", .list (i.place.map Place.toValue)),
    ("msg", .str i.problem.message)]

end TypeAlias.Definitions
