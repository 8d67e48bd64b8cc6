import TypeAlias.Graph.Digraph

/-!
# Depth-first search for strongly connected components

The search numbers the nodes in the order in which it reaches them and keeps, for each, the least
number it is known to lead back to. A node that leads back no further than to itself closes a
component: the nodes above it on the stack of unfinished nodes, together with the node.

The search is a machine. A frame holds a node and the successors not looked at yet; a step looks at
one successor of the topmost frame, or removes that frame. The machine keeps a trace of what it did,
and with each entry the bookkeeping at that moment, which tells whether a component holds a cycle.
-/

namespace TypeAlias

/-- What a search knows of a node it has reached. -/
structure Mark where
  /-- The number of nodes reached before. -/
  index : Nat
  /-- The least index the node is known to lead back to. -/
  lowlink : Nat
  deriving DecidableEq

/-- The bookkeeping of a search; several searches may share it. -/
structure SearchState (α : Type) where
  /-- The nodes reached. -/
  marks : Table α Mark := ∅
  /-- The nodes reached and not yet in a component, the last one first. -/
  stack : List α := []
  /-- The set of nodes taken to be on the stack. -/
  onStack : List α := []
  /-- The nodes found among their own successors. -/
  loops : List α := []
  /-- The next index. -/
  counter : Nat := 0

namespace SearchState

variable {α : Type} [DecidableEq α]

/-- Whether a node has been reached. -/
def visited (s : SearchState α) (x : α) : Bool :=
  s.marks.contains x

/-- Reaches a node: it gets the next index and goes on the stack. -/
def enter (s : SearchState α) (x : α) : SearchState α :=
  { s with
    marks := s.marks.insert x ⟨s.counter, s.counter⟩
    stack := x :: s.stack
    onStack := if x ∈ s.onStack then s.onStack else x :: s.onStack
    counter := s.counter + 1 }

/-- Notes that a node is among its own successors. -/
def addLoop (s : SearchState α) (x : α) : SearchState α :=
  if x ∈ s.loops then s else { s with loops := x :: s.loops }

/-- Notes an edge: one that leads back to its own node is a loop. -/
def noteEdge (s : SearchState α) (x y : α) : SearchState α :=
  if y = x then s.addLoop x else s

/-- Notes that a node leads back to an index. -/
def lower (s : SearchState α) (x : α) (bound : Nat) : SearchState α :=
  { s with marks := s.marks.modify x fun m => { m with lowlink := min m.lowlink bound } }

/-- Lowers a node to the index of a successor that is on the stack. -/
def lowerToIndex (s : SearchState α) (x y : α) : SearchState α :=
  match s.marks.get? y with
  | some m => if y ∈ s.onStack then s.lower x m.index else s
  | none => s

/-- Lowers a node to the lowlink of a successor that is finished. -/
def lowerToLowlink (s : SearchState α) (x y : α) : SearchState α :=
  match s.marks.get? y with
  | some m => s.lower x m.lowlink
  | none => s

/-- Whether a node leads back no further than to itself. -/
def isRoot (s : SearchState α) (x : α) : Bool :=
  match s.marks.get? x with
  | some m => m.lowlink == m.index
  | none => false

/-- Takes nodes off the stack down to a root and gives them in the order in which they went on. When
the root is not there, the stack runs empty and there is no component. -/
def pop (s : SearchState α) (root : α) : Option (List α) × SearchState α :=
  let above := s.stack.takeWhile (· ≠ root)
  match s.stack.dropWhile (· ≠ root) with
  | [] => (none, { s with stack := [], onStack := s.onStack.filter (· ∉ above) })
  | top :: below =>
    (some (top :: above.reverse),
      { s with stack := below, onStack := s.onStack.filter fun x => x ∉ above ∧ x ≠ top })

/-- Whether a component holds a cycle: it has several members, or its one member is among its own
successors. There is no answer for a component without members. -/
def isCyclic? (s : SearchState α) : List α → Option Bool
  | [] => none
  | [x] => some (x ∈ s.loops)
  | _ => some true

theorem visited_iff {s : SearchState α} {x : α} : s.visited x = true ↔ x ∈ s.marks.keys :=
  Table.contains_iff

theorem visited_congr {s t : SearchState α} (h : s.marks.keys = t.marks.keys) (x : α) :
    s.visited x = t.visited x := by
  rw [Bool.eq_iff_iff, visited_iff, visited_iff, h]

/-- Entering a node reaches that node and no other. -/
theorem visited_enter (s : SearchState α) (x y : α) :
    (s.enter x).visited y = true ↔ y = x ∨ s.visited y = true := by
  rw [visited_iff, visited_iff, enter, Table.keys_insert]
  split
  · next h =>
    constructor
    · exact Or.inr
    · rintro (rfl | hy)
      · exact h
      · exact hy
  · rw [List.mem_append, List.mem_singleton, or_comm]

theorem keys_lower (s : SearchState α) (x : α) (bound : Nat) :
    (s.lower x bound).marks.keys = s.marks.keys :=
  Table.keys_modify _ _ _

theorem marks_noteEdge (s : SearchState α) (x y : α) : (s.noteEdge x y).marks = s.marks := by
  unfold noteEdge addLoop
  split
  · split <;> rfl
  · rfl

theorem keys_lowerToIndex (s : SearchState α) (x y : α) :
    (s.lowerToIndex x y).marks.keys = s.marks.keys := by
  unfold lowerToIndex
  split
  · split
    · exact keys_lower _ _ _
    · rfl
  · rfl

theorem keys_lowerToLowlink (s : SearchState α) (x y : α) :
    (s.lowerToLowlink x y).marks.keys = s.marks.keys := by
  unfold lowerToLowlink
  split
  · exact keys_lower _ _ _
  · rfl

/-- Taking nodes off the stack leaves the marks alone. -/
theorem marks_pop (s : SearchState α) (x : α) : (s.pop x).2.marks = s.marks := by
  unfold pop
  split <;> rfl

end SearchState

/-- What a search does that a client can see. -/
inductive SearchEvent (α : Type) where
  /-- A node was reached and its successors were asked for. -/
  | reached (node : α)
  /-- A component was completed. -/
  | emitted (component : List α)
  deriving DecidableEq

/-- An event and the bookkeeping right after it. -/
structure Moment (α : Type) where
  event : SearchEvent α
  state : SearchState α

namespace Moment

variable {α : Type}

/-- The node reached at a moment. -/
def reached? (m : Moment α) : Option α :=
  match m.event with
  | .reached x => some x
  | .emitted _ => none

/-- The component completed at a moment. -/
def emitted? (m : Moment α) : Option (List α) :=
  match m.event with
  | .reached _ => none
  | .emitted c => some c

/-- The component completed at a moment, when it holds a cycle. -/
def cycle? [DecidableEq α] (m : Moment α) : Option (List α) :=
  m.emitted?.filter fun c => m.state.isCyclic? c == some true

end Moment

/-- The moments of a search in order, or a beginning of them. -/
abbrev Trace (α : Type) := List (Moment α)

/-- A node whose successors are being looked at. -/
structure Frame (α : Type) where
  node : α
  /-- The successors not looked at yet. -/
  rest : List α

/-- A search under way. -/
structure Search (α : Type) where
  state : SearchState α := {}
  /-- The nodes on the current path, the last one first. -/
  frames : List (Frame α) := []
  /-- What happened, the latest first. -/
  trace : Trace α := []

namespace Search

variable {α : Type} [DecidableEq α]

/-- Reaches a node and opens a frame on its successors. -/
def descend (g : Digraph α) (s : Search α) (x : α) : Search α :=
  let state := s.state.enter x
  { state := state
    frames := ⟨x, g.succ x⟩ :: s.frames
    trace := ⟨.reached x, state⟩ :: s.trace }

/-- Looks at the next successor `y` of the node `x` of the topmost frame. -/
def look (g : Digraph α) (s : Search α) (x y : α) : Search α :=
  let s := { s with state := s.state.noteEdge x y }
  if s.state.visited y then { s with state := s.state.lowerToIndex x y } else s.descend g y

/-- Hands the lowlink of the finished node `x` on to the node it was reached from. -/
def passDown (s : Search α) (x : α) : Search α :=
  match s.frames with
  | [] => s
  | parent :: _ => { s with state := s.state.lowerToLowlink parent.node x }

/-- Completes the component of the root `x`. -/
def complete (s : Search α) (x : α) : Search α :=
  match s.state.pop x with
  | (some c, state) => { s with state := state, trace := ⟨.emitted c, state⟩ :: s.trace }
  | (none, state) => { s with state := state }

/-- Leaves the node `x`, whose successors have all been looked at: the node it was reached from
inherits its lowlink, and a root completes a component. -/
def leave (s : Search α) (x : α) : Search α :=
  let s := s.passDown x
  if s.state.isRoot x then s.complete x else s

/-- One step of the machine. -/
def step (g : Digraph α) (s : Search α) : Search α :=
  match s.frames with
  | [] => s
  | ⟨x, []⟩ :: below => { s with frames := below }.leave x
  | ⟨x, y :: rest⟩ :: below => { s with frames := ⟨x, rest⟩ :: below }.look g x y

/-- Steps until no frame is open. There is no result when that never comes about. -/
def run? (g : Digraph α) (s : Search α) : Option (Search α) :=
  if s.frames.isEmpty then some s else s.step g |>.run? g
partial_fixpoint

/-- Searches from a node, unless it has been reached before. -/
def visit? (g : Digraph α) (s : Search α) (start : α) : Option (Search α) :=
  if s.state.visited start then some s else run? g (s.descend g start)

end Search

namespace Digraph

variable {α : Type} [DecidableEq α]

/-- Searches from each of the nodes in turn, with shared bookkeeping. -/
def search? (g : Digraph α) (starts : List α) (state : SearchState α := {}) : Option (Search α) :=
  starts.foldlM (Search.visit? g) { state := state }

end Digraph

end TypeAlias
