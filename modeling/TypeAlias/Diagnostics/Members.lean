import TypeAlias.Analysis
import TypeAlias.Data.Value
import TypeAlias.Diagnostics.Profile

/-!
# Findings as data

The values under which findings are published, as members of objects in their order.
-/

namespace TypeAlias

open Data

/-- Written names as a value. -/
def namesValue (names : List TypeName) : Value :=
  .strs (names.map TypeName.toString)

/-- Lists of written names as a value. -/
def componentsValue (components : List (List TypeName)) : Value :=
  .list (components.map namesValue)

/-- The value of a cycle. -/
def AliasCycle.toValue (c : AliasCycle) : Value :=
  .object [("members", namesValue c.members), ("size", .nat c.size),
    ("self_reference", .bool c.isSelfReference)]

/-- The value of a dangling reference. -/
def DanglingReference.toValue (d : DanglingReference) : Value :=
  .object [("alias", .str d.owner.toString), ("reference", .str d.reference.toString)]

/-- The members of a summary. -/
def Summary.members (s : Summary) : List (String × Value) :=
  [("aliases", .nat s.aliases), ("circular", namesValue s.circular),
    ("cycles", .list (s.cycles.map AliasCycle.toValue)),
    ("dangling", .list (s.dangling.map DanglingReference.toValue))]

/-- The members of a report. -/
def Report.members (r : Report) : List (String × Value) :=
  r.toSummary.members ++ [("order", (r.order.map namesValue).getD .null)]

/-- The members of a profile. -/
def Profile.members (p : Profile) : List (String × Value) :=
  [("direct", namesValue p.direct), ("transitive", namesValue p.transitive),
    ("circular", .bool p.circular), ("cycle", namesValue p.cycle)]

end TypeAlias
