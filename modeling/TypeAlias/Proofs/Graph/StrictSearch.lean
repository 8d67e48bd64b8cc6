import TypeAlias.Graph.Order
import TypeAlias.Proofs.Access
import TypeAlias.Proofs.Graph.Components

/-!
# A search with strict access

The bookkeeping of a search is kept in tables and on a stack. With strict access it is a fault to
look up a mark that has not been made and to take a node from an empty stack. A search does the same
with strict access as without, so no fault occurs in it.
-/

namespace TypeAlias

variable {α : Type} [DecidableEq α]

namespace SearchState

/-- Lowers a node to the index of a successor that is on the stack, with strict access. -/
def lowerToIndexStrict (s : SearchState α) (x y : α) : Except (Fault α) (SearchState α) :=
  if y ∈ s.onStack then do
    let m ← s.marks.fetch y
    let _ ← s.marks.fetch x
    return s.lower x m.index
  else .ok s

/-- Lowers a node to the lowlink of a successor that is finished, with strict access. -/
def lowerToLowlinkStrict (s : SearchState α) (x y : α) : Except (Fault α) (SearchState α) := do
  let m ← s.marks.fetch y
  let _ ← s.marks.fetch x
  return s.lower x m.lowlink

/-- Whether a node leads back no further than to itself, with strict access. -/
def isRootStrict (s : SearchState α) (x : α) : Except (Fault α) Bool := do
  let m ← s.marks.fetch x
  return m.lowlink == m.index

/-- Takes nodes off the stack down to a root, with strict access. -/
def popStrict (s : SearchState α) (root : α) : Except (Fault α) (List α × SearchState α) :=
  match s.pop root with
  | (some c, s) => .ok (c, s)
  | (none, _) => .error .empty

variable {s : SearchState α} {x y : α}

theorem fetch_marks (h : s.visited x = true) :
    s.marks.fetch x = .ok ⟨s.index x, s.lowlink x⟩ :=
  Table.fetch_of_get? (get?_marks h)

theorem lowerToIndexStrict_eq (hx : s.visited x = true) (hy : s.visited y = true) :
    s.lowerToIndexStrict x y = .ok (s.lowerToIndex x y) := by
  rw [lowerToIndexStrict, lowerToIndex_eq hy, fetch_marks hx, fetch_marks hy]
  split <;> rfl

theorem lowerToLowlinkStrict_eq (hx : s.visited x = true) (hy : s.visited y = true) :
    s.lowerToLowlinkStrict x y = .ok (s.lowerToLowlink x y) := by
  rw [lowerToLowlinkStrict, lowerToLowlink_eq hy, fetch_marks hx, fetch_marks hy]
  rfl

/-- Of a component with members it is known whether it holds a cycle. -/
theorem exists_isCyclic? {component : List α} (h : component ≠ []) :
    ∃ b, s.isCyclic? component = some b :=
  match component, h with
  | [_], _ => ⟨_, rfl⟩
  | _ :: _ :: _, _ => ⟨_, rfl⟩

theorem isRootStrict_eq (hx : s.visited x = true) : s.isRootStrict x = .ok (s.isRoot x) := by
  rw [isRootStrict, isRoot, fetch_marks hx, get?_marks hx]
  rfl

end SearchState

namespace Search

/-- Looks at the next successor `y` of the node `x` of the topmost frame, with strict access. -/
def lookStrict (g : Digraph α) (s : Search α) (x y : α) : Except (Fault α) (Search α) :=
  let s := { s with state := s.state.noteEdge x y }
  if s.state.visited y then do
    let state ← s.state.lowerToIndexStrict x y
    return { s with state }
  else .ok (s.descend g y)

/-- Hands the lowlink of the finished node `x` on to the node it was reached from, with strict
access. -/
def passDownStrict (s : Search α) (x : α) : Except (Fault α) (Search α) :=
  match s.frames with
  | [] => .ok s
  | parent :: _ => do
    let state ← s.state.lowerToLowlinkStrict parent.node x
    return { s with state }

/-- Completes the component of the root `x`, with strict access. -/
def completeStrict (s : Search α) (x : α) : Except (Fault α) (Search α) := do
  let (c, state) ← s.state.popStrict x
  return { s with state := state, trace := ⟨.emitted c, state⟩ :: s.trace }

/-- Leaves the node `x`, whose successors have all been looked at, with strict access. -/
def leaveStrict (s : Search α) (x : α) : Except (Fault α) (Search α) := do
  let s ← s.passDownStrict x
  if ← s.state.isRootStrict x then s.completeStrict x else return s

/-- One step of the machine, with strict access. -/
def stepStrict (g : Digraph α) (s : Search α) : Except (Fault α) (Search α) :=
  match s.frames with
  | [] => .ok s
  | ⟨x, []⟩ :: below => { s with frames := below }.leaveStrict x
  | ⟨x, y :: rest⟩ :: below => { s with frames := ⟨x, rest⟩ :: below }.lookStrict g x y

/-- Steps with strict access, until no frame is open or a fault occurs. -/
def runStrict? (g : Digraph α) (s : Search α) : Option (Except (Fault α) (Search α)) :=
  if s.frames.isEmpty then some (.ok s)
  else
    match s.stepStrict g with
    | .error e => some (.error e)
    | .ok s => s |>.runStrict? g
partial_fixpoint

/-- Searches from a node with strict access, unless it has been reached before. -/
def visitStrict? (g : Digraph α) (s : Search α) (start : α) :
    Option (Except (Fault α) (Search α)) :=
  if s.state.visited start then some (.ok s) else runStrict? g (s.descend g start)

/-- Searches from each of the nodes in turn with strict access, until a fault occurs. -/
def searchStrict? (g : Digraph α) : List α → Search α → Option (Except (Fault α) (Search α))
  | [], s => some (.ok s)
  | start :: starts, s =>
    match s.visitStrict? g start with
    | none => none
    | some (.error e) => some (.error e)
    | some (.ok s) => searchStrict? g starts s

variable {g : Digraph α} {earlier : SearchState α} {starts : List α} {s : Search α} {x : α}

theorem completeStrict_eq {below : List (Frame α)} (h : Nested g s.state (⟨x, []⟩ :: below))
    (hroot : s.state.isRoot x = true) : s.completeStrict x = .ok (s.complete x) := by
  have hx := h.visited x h.node_mem
  obtain ⟨c, t, hp, -⟩ := h.pop ((SearchState.isRoot_iff hx).mp hroot)
  rw [completeStrict, complete, SearchState.popStrict, hp]
  rfl

theorem passDownStrict_eq (h : Nested g s.state (⟨x, []⟩ :: s.frames)) :
    s.passDownStrict x = .ok (s.passDown x) := by
  have hx := h.visited x h.node_mem
  match hf : s.frames with
  | [] => rw [passDownStrict, hf, passDown_of_nil hf]
  | p :: fs =>
    have hp : s.state.visited p.node = true := by
      rw [hf] at h
      exact h.visited _ (h.layers.node_mem (List.mem_cons_of_mem _ List.mem_cons_self))
    rw [passDownStrict, passDown_of_cons hf, hf]
    dsimp only
    rw [SearchState.lowerToLowlinkStrict_eq hp hx]
    rfl

theorem leaveStrict_eq (h : Nested g s.state (⟨x, []⟩ :: s.frames)) :
    s.leaveStrict x = .ok (s.leave x) := by
  have hu := h.passDown.1
  have hroot : (s.passDown x).state.isRootStrict x = .ok ((s.passDown x).state.isRoot x) :=
    SearchState.isRootStrict_eq (hu.visited x hu.node_mem)
  unfold leaveStrict leave
  rw [passDownStrict_eq h]
  show ((s.passDown x).state.isRootStrict x >>= fun root => _) = _
  rw [hroot]
  show (if (s.passDown x).state.isRoot x = true then _ else _) = Except.ok (ite _ _ _)
  split
  · next hr => exact completeStrict_eq hu hr
  · rfl

theorem lookStrict_eq {y : α} {rest : List α} {below : List (Frame α)}
    (h : Nested g s.state (⟨x, y :: rest⟩ :: below)) :
    { s with frames := ⟨x, rest⟩ :: below }.lookStrict g x y =
      .ok ({ s with frames := ⟨x, rest⟩ :: below }.look g x y) := by
  have hx : (s.state.noteEdge x y).visited x = true :=
    (SearchState.visited_congr (congrArg Table.keys (SearchState.marks_noteEdge _ _ _)) x).trans
      (h.visited x h.node_mem)
  unfold lookStrict look
  dsimp only
  split
  · next hy =>
    rw [SearchState.lowerToIndexStrict_eq hx hy]
    rfl
  · rfl

/-- One step looks up only what is there. -/
theorem stepStrict_eq (h : Nested g s.state s.frames) : s.stepStrict g = .ok (s.step g) := by
  match hf : s.frames with
  | [] => rw [stepStrict, step, hf]
  | ⟨x, []⟩ :: below =>
    rw [hf] at h
    rw [stepStrict, step, hf]
    exact leaveStrict_eq (s := { s with frames := below }) h
  | ⟨x, y :: rest⟩ :: below =>
    rw [hf] at h
    rw [stepStrict, step, hf]
    exact lookStrict_eq h

/-- And so does a whole run. -/
theorem runStrict?_eq (h : Invariant g earlier starts s) {r : Search α}
    (hr : run? g s = some r) : runStrict? g s = some (.ok r) := by
  apply run?.partial_correctness g
    (fun s r => Invariant g earlier starts s → runStrict? g s = some (.ok r)) _ s r hr h
  intro run ih s r hr hs
  rw [runStrict?]
  split at hr
  · next hf =>
    cases hr
    exact if_pos hf
  · next hf =>
    rw [if_neg hf, stepStrict_eq hs.coherent.toNested]
    exact ih _ _ hr hs.step

theorem visitStrict?_eq (h : Invariant g earlier starts s) (hf : s.frames = []) {start : α}
    (hm : start ∈ starts) {r : Search α} (hr : s.visit? g start = some r) :
    s.visitStrict? g start = some (.ok r) := by
  unfold visit? at hr
  unfold visitStrict?
  split at hr
  · next hv =>
    cases hr
    exact if_pos hv
  · next hv =>
    rw [if_neg hv]
    rw [Bool.not_eq_true] at hv
    exact runStrict?_eq (h.descend hf hv (Digraph.mem_reachable_of_mem hm)) hr

/-- A search from several nodes looks up only what is there. -/
theorem searchStrict?_eq (h : Invariant g earlier starts s) (hf : s.frames = []) {todo : List α}
    (ht : ∀ x ∈ todo, x ∈ starts) {r : Search α} (hr : todo.foldlM (visit? g) s = some r) :
    searchStrict? g todo s = some (.ok r) := by
  induction todo generalizing s with
  | nil =>
    cases hr
    rfl
  | cons start todo ih =>
    rw [List.foldlM_cons] at hr
    obtain ⟨s', hv, hr⟩ := Option.bind_eq_some_iff.mp hr
    have hstart := ht start List.mem_cons_self
    obtain ⟨h', hf'⟩ := h.visit? hf hstart hv
    rw [searchStrict?, visitStrict?_eq h hf hstart hv]
    exact ih h' hf' (fun x hx => ht x (List.mem_cons_of_mem _ hx)) hr

end Search

namespace Trace

/-- What a client is handed who takes nodes one by one and gives up at a cycle, with strict
access. -/
def deliverStrict : Trace α → Except (Fault α) (List α × Option (List α))
  | [] => .ok ([], none)
  | m :: t =>
    match m.event with
    | .reached _ => deliverStrict t
    | .emitted component =>
      match component.head?, m.state.isCyclic? component with
      | some node, some cyclic =>
        if cyclic then .ok ([], some component)
        else do
          let rest ← deliverStrict t
          return (node :: rest.1, rest.2)
      | _, _ => .error .empty

/-- The order of the components of a trace, or the first of them that holds a cycle, with strict
access. -/
def orderStrict (t : Trace α) : Except (Fault α) (Except (CyclicDependency α) (List α)) := do
  match ← t.deliverStrict with
  | (_, some c) => return .error ⟨c⟩
  | (nodes, none) => return .ok nodes

/-- A client of components with members finds a member in each. -/
theorem deliverStrict_eq {t : Trace α} (h : ∀ c ∈ t.components, c ≠ []) :
    t.deliverStrict = .ok t.deliver := by
  induction t with
  | nil => rfl
  | cons m t ih =>
    obtain ⟨event, s⟩ := m
    cases event with
    | reached x => exact ih h
    | emitted c =>
      have hrest : deliverStrict t = .ok (deliver t) :=
        ih fun c' hc' => h c' (List.mem_cons_of_mem _ hc')
      obtain ⟨x, xs, rfl⟩ := List.exists_cons_of_ne_nil (h c List.mem_cons_self)
      obtain ⟨cyclic, hcyclic⟩ := SearchState.exists_isCyclic? (s := s) (List.cons_ne_nil x xs)
      rw [deliverStrict, hrest, deliver, Moment.cycle?, Moment.emitted?, Option.filter_some]
      dsimp only [List.head?_cons]
      rw [hcyclic]
      cases cyclic <;> rfl

theorem orderStrict_eq {t : Trace α} (h : ∀ c ∈ t.components, c ≠ []) :
    t.orderStrict = .ok t.order := by
  rw [orderStrict, deliverStrict_eq h, order, firstCycle?, acyclicNodes]
  generalize t.deliver = r
  obtain ⟨nodes, cycle?⟩ := r
  cases cycle? <;> rfl

end Trace

namespace FiniteDigraph

variable (g : FiniteDigraph α) (start : α)

/-- What a search from one node does, with strict access. -/
def traceStrict : Except (Fault α) (Trace α) :=
  match Search.runStrict? g.toDigraph (Search.descend g.toDigraph {} start) with
  | none => .error .endless
  | some s => s.map fun s => s.trace.reverse

/-- A search from one node ends without a fault. -/
theorem traceStrict_eq : g.traceStrict start = .ok (g.trace [start]) := by
  have hr : Search.run? g.toDigraph (Search.descend g.toDigraph {} start) =
      some (g.search [start]) := by
    have hs := g.search?_eq [start] {}
    rw [Digraph.search?, List.foldlM_cons] at hs
    obtain ⟨s, hv, hs⟩ := Option.bind_eq_some_iff.mp hs
    cases hs
    exact hv
  have hi : Search.Invariant g.toDigraph {} [start] {} :=
    Search.Invariant.initial (Coherent.initial g.toDigraph) [start]
  have hd := hi.descend rfl rfl (Digraph.mem_reachable_of_mem List.mem_cons_self)
  rw [traceStrict, Search.runStrict?_eq hd hr]
  rfl

variable (starts : List α)

/-- What a search from the nodes does, with strict access. -/
def traceAllStrict : Except (Fault α) (Trace α) :=
  match Search.searchStrict? g.toDigraph starts {} with
  | none => .error .endless
  | some s => s.map fun s => s.trace.reverse

/-- A search from several nodes ends without a fault. -/
theorem traceAllStrict_eq : g.traceAllStrict starts = .ok (g.trace starts) := by
  have hi : Search.Invariant g.toDigraph {} starts {} :=
    Search.Invariant.initial (Coherent.initial g.toDigraph) starts
  have hr := g.search?_eq starts {}
  rw [traceAllStrict, Search.searchStrict?_eq hi rfl (fun _ hx => hx) hr]
  rfl

/-- Every component has members. -/
theorem ne_nil_of_mem_components {c : List α} (hc : c ∈ (g.trace starts).components) : c ≠ [] :=
  (Digraph.decomposition_trace? (g.trace?_eq starts)).ne_nil c hc

end FiniteDigraph

end TypeAlias
