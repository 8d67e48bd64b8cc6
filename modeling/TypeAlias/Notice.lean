import TypeAlias.TypeName

/-!
# Notices

What the analysis reports about its own progress, besides its answers: a notice has a severity, the
part of the program that speaks, and a text.
-/

namespace TypeAlias

/-- How grave a notice is. -/
inductive Severity where
  | debug
  | info
  | warning
  deriving DecidableEq

/-- Something that happened during an analysis. -/
inductive Notice where
  /-- A definitions file was read. -/
  | loaded (aliases modules : Nat) (path : String)
  /-- A candidate for a name was passed over because its module aliases run in a circle. -/
  | loopPassed (candidate : TypeName)
  /-- A definition refers to an alias that is not declared. -/
  | dangling (owner reference : TypeName)
  /-- A definition was read. -/
  | walked (owner : TypeName) (found : List TypeName)
  /-- A search completed a component. -/
  | component (members : List TypeName)
  /-- Aliases were found to be circular. -/
  | circular (members : List TypeName)
  /-- All aliases have been closed. -/
  | closed (aliases walks circular : Nat)
  /-- A cycle stands in the way of an order. -/
  | orderBlocked (members : List TypeName)
  /-- There is no order of the aliases. -/
  | noOrder (cycles : Nat)
  /-- An analysis is complete. -/
  | analyzed (aliases circular dangling : Nat)
  deriving DecidableEq

namespace Notice

/-- How grave the notice is. -/
def severity : Notice → Severity
  | loaded .. | closed .. | noOrder _ | analyzed .. => .info
  | circular _ | orderBlocked _ => .warning
  | loopPassed _ | dangling .. | walked .. | component _ => .debug

/-- The part of the program that speaks. -/
def source : Notice → String
  | loaded .. => "alias_graph.loader"
  | loopPassed _ => "alias_graph.environment"
  | dangling .. | walked .. | circular _ | closed .. => "alias_graph.analysis.alias_dependency"
  | component _ | orderBlocked _ => "alias_graph.analysis.tsort"
  | noOrder _ | analyzed .. => "alias_graph.pipeline"

/-- What is said. -/
def text : Notice → String
  | loaded a m path =>
    "loaded " ++ toString a ++ " aliases and " ++ toString m ++ " module aliases from " ++ path
  | loopPassed c => "Unknown entity " ++ c.toString ++ ": module alias loop"
  | dangling owner ref => owner.toString ++ ": dangling alias reference " ++ ref.toString
  | walked owner found =>
    owner.toString ++ " -> " ++ (if found.isEmpty then "(none)" else commaSeparated found)
  | component members =>
    "component of " ++ toString members.length ++ " rooted at " ++
      commaSeparated (members.take 1)
  | circular members => "circular alias definition: " ++ commaSeparated members
  | closed a w c =>
    "closed " ++ toString a ++ " aliases (" ++ toString w ++ " walks, " ++ toString c ++
      " circular)"
  | orderBlocked members => "cycle blocks ordering: " ++ commaSeparated members
  | noOrder n => "no alias order: " ++ toString n ++ " cycle(s)"
  | analyzed a c d =>
    "analyzed " ++ toString a ++ " aliases: " ++ toString c ++ " circular, " ++ toString d ++
      " dangling reference(s)"

/-- The line that shows the notice. -/
def line (n : Notice) : String :=
  let level :=
    match n.severity with
    | .debug => "DEBUG"
    | .info => "INFO"
    | .warning => "WARNING"
  level ++ " " ++ n.source ++ ": " ++ n.text ++ "\n"

end Notice

end TypeAlias
