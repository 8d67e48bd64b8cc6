import TypeAlias.Data.Part
import TypeAlias.Data.Yaml.Merge
import TypeAlias.Data.Yaml.Typed

/-!
# Documents as data

Each node of a document becomes a part with the same number. Collections are filled in the order in
which they are met, and the scalars that they hold are read then, so that of several faults the one
nearest to the whole counts.
-/

namespace TypeAlias.Data.Yaml

/-- What is known while nodes become parts. -/
structure BuilderState where
  nodes : Nodes
  /-- The parts that have been met, by their numbers. -/
  parts : Array (Option (Content Nat))
  /-- The numbers of the collections that have been met and not been filled, the last one first. -/
  waiting : List Nat := []

/-- Making parts out of nodes, which may fail. -/
abbrev Builder (α : Type) := StateT BuilderState (Except Fault) α

namespace Builder

/-- The building of a malformed document. -/
def malformed {α : Type} : Builder α :=
  throw .malformed

/-- The node with a number. -/
def nodeAt (number : Nat) : Builder Node := do
  match (← get).nodes[number]? with
  | some n => return n
  | none => malformed

/-- Makes a part with a number. -/
def setPart (number : Nat) (c : Content Nat) : Builder Unit :=
  modify fun b => { b with parts := b.parts.set! number (some c) }

/-- Makes a part with a number of its own. -/
def addPart (c : Content Nat) : Builder Nat := do
  let number := (← get).parts.size
  modify fun b => { b with parts := b.parts.push (some c) }
  return number

/-- Makes a collection that is to be filled later. -/
def start (number : Nat) (c : Content Nat) : Builder Unit := do
  setPart number c
  modify fun b => { b with waiting := number :: b.waiting }

/-- The text of a node that stands for a scalar: of a mapping, the text under its key `=`. -/
def textAt : Nat → Nat → Builder String
  | 0, _ => malformed
  | fuel + 1, number => do
    match ← nodeAt number with
    | .scalar _ text => return text
    | .sequence _ _ => malformed
    | .mapping _ entries =>
      let nodes := (← get).nodes
      match entries.find? fun e => nodes.kindAt e.1 = .value with
      | some (_, value) => textAt fuel value
      | none => malformed

/-- Makes the scalar of a given kind that a node stands for. -/
def makeScalar (number : Nat) (kind : Kind) : Builder Unit := do
  let text ← textAt ((← get).nodes.size + 1) number
  match kind, ← nodeAt number with
  | .timestamp, .mapping _ _ => throw .mappingAsTimestamp
  | _, _ => setPart number (.scalar (← scalarOf kind text))

/-- Makes the part with a number, unless it has been made. A collection is only started. -/
def meet (number : Nat) : Builder Unit := do
  match (← get).parts[number]? with
  | some (some _) => return ()
  | _ =>
    match (← nodeAt number).kind with
    | .seq | .omap | .pairs => start number (.list [])
    | .map => start number (.map [])
    | .set => start number (.set [])
    | .merge | .value | .unknown => malformed
    | kind => makeScalar number kind

/-- The scalar that the part with a number is. -/
def scalarAt (number : Nat) : Builder Scalar := do
  match (← get).parts[number]? with
  | some (some (.scalar s)) => return s
  | _ => malformed

/-- The entries of the mapping with a number, each with its key and the numbers of key and value.
Lists and mappings are no keys. -/
def entriesOf (number : Nat) : Builder (List (Scalar × Nat × Nat)) := do
  let (entries, nodes) ← (Merging.merged number).run (← get).nodes
  modify fun b => { b with nodes }
  entries.mapM fun (key, value) => do
    meet key
    let s ← scalarAt key
    meet value
    return (s, key, value)

/-- The pair that the only entry of the mapping with a number makes. -/
def pairOf (number : Nat) : Builder Nat := do
  match ← nodeAt number with
  | .mapping _ [(key, value)] =>
    meet key
    meet value
    addPart (.pair key value)
  | _ => malformed

/-- The first of each entries with the same key. -/
def distinctKeys {α : Type} : List (Scalar × α) → List (Scalar × α)
  | [] => []
  | e :: rest => e :: (distinctKeys rest).filter fun f => !f.1.sameKey e.1

/-- Fills the collection with a number. -/
def fill (number : Nat) : Builder Unit := do
  match ← nodeAt number with
  | .sequence .seq items =>
    items.forM meet
    setPart number (.list items)
  | .sequence .omap items | .sequence .pairs items =>
    setPart number (.list (← items.mapM pairOf))
  | .mapping .map _ =>
    let entries ← entriesOf number
    setPart number (.map (Entries.ofList (entries.map fun e => (e.1, e.2.2))))
  | .mapping .set _ =>
    let members := setOrder (distinctKeys (← entriesOf number))
    setPart number (.set (members.map fun m => m.2.1))
  | _ => malformed

/-- Fills the collections that wait, and those that are met in them, to a given depth. -/
def fillAll : Nat → Builder Unit
  | 0 => return ()
  | depth + 1 => do
    let batch := (← get).waiting.reverse
    modify fun b => { b with waiting := [] }
    batch.forM fill
    if (← get).waiting.isEmpty then return () else fillAll depth

/-- Makes all parts in the part with a number. Each node waits at most once, so there are no more
levels than nodes. -/
def make (number : Nat) : Builder Unit := do
  meet number
  fillAll ((← get).nodes.size + 1)

end Builder

/-- The data of a graph of nodes. -/
def NodeGraph.toPart (g : NodeGraph) : Except Fault Part := do
  let parts := g.nodes.map fun _ => none
  let (_, b) ← (Builder.make g.root).run { nodes := g.nodes, parts }
  return { parts := b.parts.map fun c => c.getD (.scalar .null), number := g.root }

/-- The data of a text, which is nothing if the text is empty. -/
def read (cs : List Char) : Except Fault Part := do
  let (tokens, fault?) := Token.ofText cs
  match ← NodeGraph.ofTokens tokens fault? with
  | none => return .ofScalar .null
  | some g => g.toPart

end TypeAlias.Data.Yaml
