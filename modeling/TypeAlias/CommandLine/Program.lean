import TypeAlias.Analysis
import TypeAlias.CommandLine.Command
import TypeAlias.CommandLine.Style
import TypeAlias.Data.Json.Printer
import TypeAlias.Diagnostics.Members

/-!
# The program

What the program prints for its arguments, and how it ends. Notices and errors go to the error
output. A program that is not verbose shows only warnings.
-/

namespace TypeAlias.CommandLine

open Data Definitions Files

/-- What the program finds around it. -/
structure Surroundings where
  /-- What stands at a path. -/
  lookup : String → FileState
  /-- Whether colours are printed. -/
  color : Bool := false
  /-- Whether the service can be offered. -/
  canServe : Bool := false

/-- A service to be offered. -/
structure Server where
  title : String := "alias-graph"
  host : String
  port : Int
  logLevel : String := "info"
  deriving DecidableEq

/-- An error that ends the program because nothing answers it. -/
inductive Uncaught where
  | error (e : AnalysisError)
  /-- A text cannot be written. -/
  | unwritable (text : String)
  deriving DecidableEq

/-- The class of the error. -/
def Uncaught.errorClass : Uncaught → ErrorClass
  | error e => e.errorClass
  | unwritable _ => .encoding

/-- What is said of the error. -/
def Uncaught.message : Uncaught → String
  | error e => e.message
  | unwritable text => unwritableMessage text

/-- What the program prints, how it ends, and the service that it offers. -/
structure Outcome where
  exit : Nat := 0
  out : String := ""
  err : String := ""
  server : Option Server := none
  /-- An error that ends the program in place of a message. -/
  uncaught : Option Uncaught := none
  deriving DecidableEq

/-- The version of the program. -/
def version : String :=
  "0.1.0"

/-- A printed line. -/
def line (s : Surroundings) (text : String) : String :=
  printed s.color (text ++ "\n")

/-- A printed line of the error output. -/
def errorLine (s : Surroundings) (text : String) : String :=
  surrogatesShown (line s text)

/-- The lines of the notices that are shown. -/
def noticeLines (verbose : Bool) (notices : List Notice) : String :=
  String.join <| (notices.filter fun n => verbose || n.severity = .warning).map fun n =>
    surrogatesShown n.line

/-- Prints lines before the program ends. It ends at the first one that cannot be written. -/
def printing (s : Surroundings) : List String → Outcome → Outcome
  | [], o => o
  | text :: rest, o =>
    if Text.hasSurrogate (line s text) then
      { exit := 1, err := o.err, uncaught := some (.unwritable (line s text)) }
    else
      let o := printing s rest o
      { o with out := line s text ++ o.out }

/-- The end of the program with an error, behind what stands in the error output already. -/
def failed (s : Surroundings) (err message : String) : Outcome :=
  { exit := 1, err := err ++ errorLine s ("Error: " ++ message) }

/-- The end of the program with an error that nothing answers. -/
def aborted (err : String) (e : AnalysisError) : Outcome :=
  { exit := 1, err, uncaught := some (.error e) }

/-- The end of the program with an error: a message, if its class is one that is handled. -/
def reported (handled : List ErrorClass) (s : Surroundings) (err : String) (e : AnalysisError) :
    Outcome :=
  if handled.any e.errorClass.isA then failed s err e.message else aborted err e

/-! ## Checking -/

/-- A line of the list of findings, with a label in front. -/
def finding (color : Color) (label text : String) : String :=
  "  " ++ padLeft 24 (styled color label) ++ "  " ++ text

/-- The line about a cycle. -/
def cycleLine (c : AliasCycle) : String :=
  let label := if c.isSelfReference then "self reference" else "cycle of " ++ toString c.size
  finding .red label (commaSeparated c.members)

/-- The line about a dangling reference. -/
def danglingLine (d : DanglingReference) : String :=
  finding .yellow "dangling" (d.owner.toString ++ " -> " ++ d.reference.toString)

/-- The lines of a report. -/
def reportLines (r : Report) : List String :=
  ("Checked " ++ toString r.aliases ++ " alias(es)\n") ::
    (r.cycles.map cycleLine ++ r.dangling.map danglingLine ++
      if r.cycles.isEmpty && r.dangling.isEmpty then
        [styled .green "No circular aliases found."]
      else [])

/-- Reports on the aliases in a file; cycles make the program fail. -/
def check (s : Surroundings) (verbose : Bool) (file : String) (guarded eager json : Bool) :
    Outcome :=
  let options : AnalysisOptions := { location := .ofText file, guarded, eager }
  let (outcome, state) := (Analysis.report options (s.lookup options.location.text)).outcome
  let err := noticeLines verbose state.session.notices
  match outcome with
  | .error e => reported [.program] s err e
  | .ok r =>
    printing s (if json then [Json.print (some 2) (.object r.members)] else reportLines r)
      { exit := if r.hasCycles then 1 else 0, err }

/-! ## Questions -/

/-- Answers a question about the definitions in a file. -/
def answer {α : Type} (s : Surroundings) (verbose : Bool) (file : String) (guarded : Bool)
    (question : Environment → Query α) (show? : Except QueryError α → Outcome) : Outcome :=
  let location := Location.ofText file
  match Session.ofFile guarded location (s.lookup location.text) with
  | .error e => reported [.program] s "" (.load e)
  | .ok session =>
    let (a, session) := session.ask question
    let outcome := show? a
    { outcome with err := noticeLines verbose session.notices ++ outcome.err }

/-- Written names, or a dash if there are none. -/
def namesOrDash (names : List TypeName) : String :=
  if names.isEmpty then "-" else commaSeparated names

/-- The lines about the dependencies of an alias. -/
def profileLines (name : String) (p : Profile) : List String :=
  [styled .cyan name, "  direct:     " ++ namesOrDash p.direct,
    "  transitive: " ++ namesOrDash p.transitive] ++
    if p.circular then [styled .red ("  circular:   " ++ commaSeparated p.cycle)] else []

/-- The line about a component. -/
def componentLine (members : List TypeName) : String :=
  let text := commaSeparated members
  if members.length > 1 then styled .red text else text

/-- Runs a command. -/
def Command.run (s : Surroundings) (verbose : Bool) : Command → Outcome
  | check file guarded eager json => CommandLine.check s verbose file guarded eager json
  | deps file name guarded =>
    answer s verbose file guarded (Query.profile name) fun
      | .error e => reported [.unknownEntity, .value] s "" (.query e)
      | .ok p => printing s (profileLines name p) {}
  | order file guarded =>
    answer s verbose file guarded Query.order fun
      | .error e =>
        if e.errorClass.isA .cyclicDependency then
          { exit := 1, err := errorLine s (styled .red e.message) }
        else aborted "" (.query e)
      | .ok names => printing s (names.map TypeName.toString) {}
  | components file guarded =>
    answer s verbose file guarded Query.components fun
      | .error e => aborted "" (.query e)
      | .ok cs => printing s (cs.map componentLine) {}
  | serve host port =>
    if s.canServe then
      printing s ["Starting alias-graph API at http://" ++ host ++ ":" ++ toString port]
        { server := some { host, port } }
    else
      failed s ""
        ("uvicorn is required for the HTTP API. " ++
          "Install with: pip install 'alias-graph[web]'")

/-- The end of the program when its arguments are wrong. -/
def misused (s : Surroundings) (e : UsageError) : Outcome :=
  { exit := 2, err := surrogatesShown (printed s.color e.message) }

/-- Runs the program. -/
def run (s : Surroundings) (arguments : List String) : Outcome :=
  match Request.read s.lookup arguments with
  | .error e => misused s e
  | .ok .version => { out := line s ("cli, version " ++ version) }
  | .ok (.help command) => { out := usageLine command }
  | .ok (.run verbose command) => command.run s verbose

end TypeAlias.CommandLine
