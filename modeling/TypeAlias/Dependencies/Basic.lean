import TypeAlias.Dependencies.Reading
import TypeAlias.Graph.Order

/-!
# Dependencies of aliases

An alias depends on every alias that can be reached from it by direct dependencies, and it is
circular when it depends on itself. Answers are kept once they have been found and are never
changed, also when the environment changes: a definition is read when it is first needed, and the
components within reach of an alias are closed together, sinks first, those closed before counting
as leaves.

A query reads the environment and may extend what is known. What it has learnt stays known when the
query fails.
-/

namespace TypeAlias

/-- What is known of the dependencies in an environment. -/
structure Dependencies where
  /-- Whether a recursion below a guarding expression does not count. -/
  guarded : Bool := false
  /-- The number of definitions read. -/
  walks : Nat := 0
  /-- The direct dependencies of the aliases that have been read. -/
  direct : Table TypeName (List TypeName) := ∅
  /-- The dangling references of the aliases that have been read. -/
  dangling : Table TypeName (List TypeName) := ∅
  /-- Everything the closed aliases depend on, with whether it depends on them in turn. -/
  reached : Table TypeName (Table TypeName Bool) := ∅
  /-- The cycles of the closed aliases that are circular. -/
  cycles : Table TypeName (List TypeName) := ∅
  /-- What there is to report, the latest first. -/
  notices : List Notice := []

namespace Dependencies

/-- Reports something. -/
def tell (d : Dependencies) (n : Notice) : Dependencies :=
  { d with notices := n :: d.notices }

/-- Keeps what was read in the definition of an alias. -/
def record (d : Dependencies) (name : TypeName) (decl : AliasDecl) (r : Reading) : Dependencies :=
  { d with
    walks := d.walks + 1
    direct := d.direct.insert name r.found
    dangling := d.dangling.insert decl.name r.dangling
    notices := r.notices ++ d.notices }

/-- The direct dependencies of an alias given by its canonical name; its definition is read unless
it has been read before. -/
def readDirect (env : Environment) (name : TypeName) (d : Dependencies) :
    Except LookupError (List TypeName) × Dependencies :=
  match d.direct.get? name with
  | some deps => (.ok deps, d)
  | none =>
    match env.aliasDecl name with
    | .error e => (.error e, d)
    | .ok decl =>
      let r := Reading.ofDecl env d.guarded decl
      (.ok r.found, d.record name decl r)

/-- The direct dependencies of an alias as a query would find them; none if the query would fail. -/
def edges (env : Environment) (d : Dependencies) (name : TypeName) : List TypeName :=
  match (d.readDirect env name).1 with
  | .ok deps => deps
  | .error _ => []

/-- The aliases that direct dependencies can lead to: declared ones, and names that definitions read
before depend on, which need not be declared any more. -/
def targets (env : Environment) (d : Dependencies) : List TypeName :=
  env.aliasNames ++ d.direct.values.flatten

theorem mem_targets_of_mem_edges {env : Environment} {d : Dependencies} {a b : TypeName}
    (h : b ∈ d.edges env a) : b ∈ d.targets env := by
  unfold edges readDirect at h
  cases hd : d.direct.get? a with
  | some deps =>
    simp only [hd] at h
    exact List.mem_append_right _ (List.mem_flatten.mpr ⟨deps, Table.mem_values_of_get? hd, h⟩)
  | none =>
    simp only [hd] at h
    cases he : env.aliasDecl a with
    | error e => simp [he] at h
    | ok decl =>
      simp only [he] at h
      exact List.mem_append_left _ (Reading.mem_found_ofDecl h)

/-- The graph of the direct dependencies in which closed aliases are leaves. -/
def openGraph (env : Environment) (d : Dependencies) : FiniteDigraph TypeName where
  succ name := if d.reached.contains name then [] else d.edges env name
  exists_targets := by
    refine ⟨d.targets env, fun a b h => ?_⟩
    split at h
    · exact absurd h List.not_mem_nil
    · exact mem_targets_of_mem_edges h

/-- Adds a dependency that is not in a cycle with the dependents, unless it is known. -/
def addReached (t : Table TypeName Bool) (name : TypeName) : Table TypeName Bool :=
  if t.contains name then t else t.insert name false

/-- Adds a direct dependency of a component, and what that depends on in turn. -/
def spliceIn (d : Dependencies) (component : List TypeName) (t : Table TypeName Bool)
    (dep : TypeName) : Table TypeName Bool :=
  if dep ∈ component then t
  else ((d.reached.get? dep).getD ∅).keys.foldl addReached (addReached t dep)

/-- Everything the members of a component depend on, when what they lead to is closed already. -/
def closureOf (d : Dependencies) (component : List TypeName) (cyclic : Bool) :
    Table TypeName Bool :=
  let start := if cyclic then component.foldl (fun t m => t.insert m true) ∅ else ∅
  (component.flatMap fun m => (d.direct.get? m).getD []).foldl (d.spliceIn component) start

/-- Closes the members of a component; all share one closure. -/
def close (d : Dependencies) (component : List TypeName) (cyclic : Bool) : Dependencies :=
  let closure := d.closureOf component cyclic
  let d := if cyclic then d.tell (.circular component) else d
  { d with
    cycles :=
      if cyclic then component.foldl (fun t m => t.insert m component) d.cycles else d.cycles
    reached := component.foldl (fun t m => t.insert m closure) d.reached }

/-- Follows one moment of a search through the open aliases: an alias that was reached is read, and
a component that was completed is closed, unless it is closed already. -/
def follow (env : Environment) (m : Moment TypeName) (d : Dependencies) :
    Except LookupError Unit × Dependencies :=
  match m.event with
  | .reached name =>
    if d.reached.contains name then (.ok (), d)
    else
      match d.readDirect env name with
      | (.ok _, d) => (.ok (), d)
      | (.error e, d) => (.error e, d)
  | .emitted component =>
    let d := d.tell (.component component)
    if component.head?.any d.reached.contains then (.ok (), d)
    else (.ok (), d.close component (m.state.isCyclic? component == some true))

/-- Follows the moments of a search until one fails. -/
def followAll (env : Environment) : Trace TypeName → Dependencies →
    Except LookupError Unit × Dependencies
  | [], d => (.ok (), d)
  | m :: t, d =>
    match d.follow env m with
    | (.ok _, d) => d.followAll env t
    | (.error e, d) => (.error e, d)

/-- Everything an alias depends on, given by its canonical name; what is within its reach is closed
unless the alias has been closed before. -/
def readReached (env : Environment) (name : TypeName) (d : Dependencies) :
    Except LookupError (Table TypeName Bool) × Dependencies :=
  match d.reached.get? name with
  | some closure => (.ok closure, d)
  | none =>
    match d.followAll env ((d.openGraph env).trace [name]) with
    | (.error e, d) => (.error e, d)
    | (.ok _, d) => (.ok ((d.reached.get? name).getD ∅), d)

end Dependencies

end TypeAlias
