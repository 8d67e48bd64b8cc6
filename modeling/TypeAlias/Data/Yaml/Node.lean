import TypeAlias.Data.Yaml.Kind
import TypeAlias.Data.Yaml.Token

/-!
# Nodes

The tokens of a document make a graph of scalars, sequences and mappings, whose nodes are numbered.
A node may have been given a name, under which it stands in other places of the document, also
inside of itself.
-/

namespace TypeAlias.Data.Yaml

/-- A node of a document; the nodes that it holds are given by their numbers. -/
inductive Node where
  | scalar (kind : Kind) (text : String)
  | sequence (kind : Kind) (items : List Nat)
  | mapping (kind : Kind) (entries : List (Nat × Nat))

namespace Node

/-- The node that is not written. -/
def empty : Node :=
  scalar .null ""

/-- The kind of a node. -/
def kind : Node → Kind
  | scalar kind _ | sequence kind _ | mapping kind _ => kind

/-- The same node of another kind. -/
def withKind (kind : Kind) : Node → Node
  | scalar _ text => scalar kind text
  | sequence _ items => sequence kind items
  | mapping _ entries => mapping kind entries

/-- The entries of a mapping. -/
def entries : Node → List (Nat × Nat)
  | mapping _ entries => entries
  | _ => []

end Node

/-- The nodes of a document by their numbers. -/
abbrev Nodes := Array Node

namespace Nodes

/-- The kind of the node with a number. -/
def kindAt (ns : Nodes) (number : Nat) : Kind :=
  (ns[number]?.map Node.kind).getD .unknown

/-- Changes the node with a number. -/
def change (ns : Nodes) (number : Nat) (f : Node → Node) : Nodes :=
  match ns[number]? with
  | some n => ns.set! number (f n)
  | none => ns

end Nodes

/-- What is known while nodes are read. -/
structure ReaderState where
  /-- The tokens that follow. -/
  tokens : List Token
  /-- What is wrong behind the tokens. -/
  fault? : Option Fault
  nodes : Nodes := #[]
  /-- The names given so far, each with the number of its node. -/
  anchors : List (String × Nat) := []
  /-- What the tag handles stand for. -/
  handles : List (String × String) := []

/-- What tag handles stand for unless a directive says otherwise. -/
def defaultHandles : List (String × String) :=
  [("!", "!"), ("!!", Kind.standardTag)]

/-- Reading from tokens, which may fail. -/
abbrev Reader (α : Type) := StateT ReaderState (Except Fault) α

namespace Reader

/-- The reading of malformed tokens. -/
def malformed {α : Type} : Reader α :=
  throw .malformed

/-- The next token, if the text has not come to its end. -/
def peek? : Reader (Option Token) := do
  let r ← get
  match r.tokens, r.fault? with
  | [], some fault => throw fault
  | ts, _ => return ts.head?

/-- Whether the next token is one of some. -/
def isNext (ts : List Token) : Reader Bool := do
  return (← peek?).any ts.contains

/-- Steps over the next token. -/
def skip : Reader Unit :=
  modify fun r => { r with tokens := r.tokens.tail }

/-- Steps over a given token, if it is the next one. -/
def accept (t : Token) : Reader Bool := do
  if ← isNext [t] then
    skip
    return true
  else return false

/-- Steps over a given token, which must be the next one. -/
def expect (t : Token) : Reader Unit := do
  if ← accept t then return () else malformed

/-- What stands before the content of a node. -/
structure Properties where
  anchor : Option String := none
  tag : Option Tag := none

/-- Reads a name and a tag, in either order and either of them optional. -/
def properties : Reader Properties := do
  match ← peek? with
  | some (.anchor a) =>
    skip
    match ← peek? with
    | some (.tag t) =>
      skip
      return { anchor := some a, tag := some t }
    | _ => return { anchor := some a }
  | some (.tag t) =>
    skip
    match ← peek? with
    | some (.anchor a) =>
      skip
      return { anchor := some a, tag := some t }
    | _ => return { tag := some t }
  | _ => return {}

/-- The kind that a tag tells; the tag `!` tells nothing. -/
def kindOf? (t : Tag) : Reader (Option Kind) := do
  match t.handle with
  | none => return if t.suffix = "!" then none else some (.ofTag t.suffix)
  | some h =>
    match (← get).handles.lookup h with
    | none => malformed
    | some meaning => return some (.ofTag (meaning ++ t.suffix))

/-- The kind that some properties tell. -/
def Properties.kind? (p : Properties) : Reader (Option Kind) := do
  match p.tag with
  | none => return none
  | some t => Reader.kindOf? t

/-- Whether no property is given. -/
def Properties.isEmpty (p : Properties) : Bool :=
  p.anchor.isNone && p.tag.isNone

/-- Makes sure that a name has not been given yet. -/
def requireFresh (name : Option String) : Reader Unit := do
  match name with
  | none => return ()
  | some a => if ((← get).anchors.lookup a).isSome then malformed else return ()

/-- Adds a node under a name, if it is given one. -/
def add (name : Option String) (node : Node) : Reader Nat := do
  let number := (← get).nodes.size
  modify fun r =>
    { r with
      nodes := r.nodes.push node
      anchors := (name.map fun a => (a, number)).toList ++ r.anchors }
  return number

/-- Adds the node that is not written. -/
def addEmpty : Reader Nat :=
  add none Node.empty

/-- Adds a collection whose content is read when its name has been given already. -/
def addCollection {α : Type} (name : Option String) (content : Reader (List α))
    (collection : List α → Node) : Reader Nat := do
  let number ← add name (collection [])
  let inner ← content
  modify fun r => { r with nodes := r.nodes.set! number (collection inner) }
  return number

/-- The number of the node with a name. -/
def named (a : String) : Reader Nat := do
  match (← get).anchors.lookup a with
  | some number => return number
  | none => malformed

/-- The tokens that a value or a key of a block mapping cannot start with. -/
def blockStops : List Token :=
  [.key, .value, .blockEnd]

mutual

/-- Reads a node. In a block it may be a block collection, and as a value or key of a block mapping
also a sequence that is not indented. -/
def node : Nat → Bool → Bool → Reader Nat
  | 0, _, _ => malformed
  | fuel + 1, inBlock, unindented => do
    match ← peek? with
    | some (.alias a) =>
      skip
      named a
    | _ =>
      let p ← properties
      let kind? ← p.kind?
      let next ← peek?
      let sequence (content : Reader (List Nat)) : Reader Nat :=
        addCollection p.anchor content (.sequence (kind?.getD .seq))
      let mapping (content : Reader (List (Nat × Nat))) : Reader Nat :=
        addCollection p.anchor content (.mapping (kind?.getD .map))
      requireFresh p.anchor
      if unindented && next == some .blockEntry then sequence (unindentedItems fuel [])
      else
        match next with
        | some (.scalar text plain) =>
          skip
          let untagged := if plain || p.tag.isSome then Kind.ofText text else .str
          add p.anchor (.scalar (kind?.getD untagged) text)
        | some .flowSequenceStart =>
          skip
          sequence (flowItems fuel true [])
        | some .flowMappingStart =>
          skip
          mapping (flowEntries fuel true [])
        | _ =>
          if inBlock && next == some .blockSequenceStart then
            skip
            sequence (blockItems fuel [])
          else if inBlock && next == some .blockMappingStart then
            skip
            mapping (blockEntries fuel [])
          else if p.isEmpty then malformed
          else add p.anchor (.scalar (kind?.getD .null) "")

/-- Reads a node that may be left out before some tokens. -/
def nodeUnless : Nat → List Token → Bool → Bool → Reader Nat
  | 0, _, _, _ => malformed
  | fuel + 1, stops, inBlock, unindented => do
    if ← isNext stops then addEmpty
    else node fuel inBlock unindented

/-- Reads the rest of a block sequence. -/
def blockItems : Nat → List Nat → Reader (List Nat)
  | 0, _ => malformed
  | fuel + 1, done => do
    if ← accept .blockEntry then
      let item ← nodeUnless fuel [.blockEntry, .blockEnd] true false
      blockItems fuel (item :: done)
    else
      expect .blockEnd
      return done.reverse

/-- Reads the rest of a sequence that is not indented. -/
def unindentedItems : Nat → List Nat → Reader (List Nat)
  | 0, _ => malformed
  | fuel + 1, done => do
    if ← accept .blockEntry then
      let item ← nodeUnless fuel (.blockEntry :: blockStops) true false
      unindentedItems fuel (item :: done)
    else return done.reverse

/-- Reads the rest of a block mapping. -/
def blockEntries : Nat → List (Nat × Nat) → Reader (List (Nat × Nat))
  | 0, _ => malformed
  | fuel + 1, done => do
    if ← accept .key then
      let key ← nodeUnless fuel blockStops true true
      let value ← if ← accept .value then nodeUnless fuel blockStops true true else addEmpty
      blockEntries fuel ((key, value) :: done)
    else
      expect .blockEnd
      return done.reverse

/-- Reads the rest of a flow sequence. An item with a key is a mapping of one entry. -/
def flowItems : Nat → Bool → List Nat → Reader (List Nat)
  | 0, _, _ => malformed
  | fuel + 1, first, done => do
    if ← accept .flowSequenceEnd then return done.reverse
    else
      if !first then expect .flowEntry
      let stops : List Token := [.flowEntry, .flowSequenceEnd]
      if ← accept .key then
        let key ← nodeUnless fuel (.value :: stops) false false
        let value ← if ← accept .value then nodeUnless fuel stops false false else addEmpty
        flowItems fuel false ((← add none (.mapping .map [(key, value)])) :: done)
      else if ← accept .flowSequenceEnd then return done.reverse
      else
        let item ← node fuel false false
        flowItems fuel false (item :: done)

/-- Reads the rest of a flow mapping. An entry without a key sign has no value. -/
def flowEntries : Nat → Bool → List (Nat × Nat) → Reader (List (Nat × Nat))
  | 0, _, _ => malformed
  | fuel + 1, first, done => do
    if ← accept .flowMappingEnd then return done.reverse
    else
      if !first then expect .flowEntry
      let stops : List Token := [.flowEntry, .flowMappingEnd]
      if ← accept .key then
        let key ← nodeUnless fuel (.value :: stops) false false
        let value ← if ← accept .value then nodeUnless fuel stops false false else addEmpty
        flowEntries fuel false ((key, value) :: done)
      else if ← accept .flowMappingEnd then return done.reverse
      else
        let key ← node fuel false false
        flowEntries fuel false ((key, ← addEmpty) :: done)

end

/-- Reads the directives before a document: one version at most, which must be 1, and no handle
twice. -/
def directives : Nat → Bool → List (String × String) → Reader Bool
  | 0, _, _ => malformed
  | fuel + 1, versioned, handles => do
    match ← peek? with
    | some (.version major) =>
      skip
      if versioned || major ≠ 1 then malformed else directives fuel true handles
    | some (.handle name meaning) =>
      skip
      if (handles.lookup name).isSome then malformed
      else directives fuel versioned ((name, meaning) :: handles)
    | some .directive =>
      skip
      directives fuel versioned handles
    | _ =>
      modify fun r => { r with handles := handles ++ defaultHandles }
      return true

/-- Steps over the signs that end a document. -/
def documentEnds : Nat → Reader Unit
  | 0 => malformed
  | fuel + 1 => do
    if ← accept .documentEnd then documentEnds fuel else return ()

/-- Whether the next token is a directive. -/
def atDirective : Reader Bool := do
  match ← peek? with
  | some (.version _) | some (.handle _ _) | some .directive => return true
  | _ => return false

/-- Reads the one document of a text, and tells the number of its node; none if there is no
document. -/
def document (fuel : Nat) : Reader (Option Nat) := do
  if (← peek?).isNone then return none
  else
    let explicit := (← atDirective) || (← isNext [.documentStart])
    let content ←
      if explicit then
        let _ ← directives fuel false []
        expect .documentStart
        if (← peek?).isNone || (← atDirective) || (← isNext [.documentStart, .documentEnd]) then
          addEmpty
        else node fuel true false
      else
        modify fun r => { r with handles := defaultHandles }
        node fuel true false
    documentEnds fuel
    if (← peek?).isNone then return some content else malformed

end Reader

/-- The nodes of a document and the number of the whole. -/
structure NodeGraph where
  nodes : Nodes
  root : Nat

/-- The document that some tokens are, with what is wrong behind them; nothing if they are empty.
Each node takes a token or stands for one left out, so a multiple of the number of tokens is fuel
enough. -/
def NodeGraph.ofTokens (ts : List Token) (fault? : Option Fault) :
    Except Fault (Option NodeGraph) := do
  let (root?, r) ← (Reader.document (4 * ts.length + 4)).run { tokens := ts, fault? }
  return root?.map fun root => { nodes := r.nodes, root }

end TypeAlias.Data.Yaml
