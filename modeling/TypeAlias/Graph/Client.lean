import TypeAlias.Graph.Order

/-!
# Clients that may give up

A search hands each component to a client right after it has taken the component off the stack. The
client may give up on it. Then the search is left where it stands: the node of the component has no
frame any more, and the nodes on the current path are still on the stack.
-/

namespace TypeAlias

/-- One who is handed things one after the other. The client has a memory, which changes whether or
not the client gives up. -/
structure Client (β σ ε : Type) where
  /-- The memory afterwards, and the failure of a client who gives up. -/
  receive : β → σ → σ × Option ε

namespace Client

variable {α β σ ε : Type}

/-- Hands over the elements of a list until the client gives up. -/
def tell (client : Client β σ ε) : List β → σ → σ × Option ε
  | [], memory => (memory, none)
  | b :: bs, memory =>
    match client.receive b memory with
    | (memory, some e) => (memory, some e)
    | (memory, none) => client.tell bs memory

/-- Keeps what it is handed. With a limit it gives up when it has been handed that many. -/
def keeping (limit? : Option Nat) : Client β (List β) Unit where
  receive b kept := (kept ++ [b], if limit? = some (kept.length + 1) then some () else none)

/-- Takes the components only. -/
def ofComponents (client : Client (List α) σ ε) : Client (Moment α) σ ε where
  receive m memory :=
    match m.emitted? with
    | some c => client.receive c memory
    | none => (memory, none)

end Client

/-- Why the nodes of a graph were not all handed over. -/
inductive OrderFailure (α ε : Type) where
  /-- A component holds a cycle. -/
  | cyclic (e : CyclicDependency α)
  /-- The client gave up. -/
  | refused (e : ε)
  deriving DecidableEq

/-- Takes the nodes of the components, but gives up at a component that holds a cycle. -/
def Client.ofNodes {α σ ε : Type} [DecidableEq α] (client : Client α σ ε) :
    Client (Moment α) σ (OrderFailure α ε) where
  receive m memory :=
    match m.cycle? with
    | some c => (memory, some (.cyclic ⟨c⟩))
    | none =>
      match m.emitted?.bind List.head? with
      | some x =>
        let (memory, failure?) := client.receive x memory
        (memory, failure?.map .refused)
      | none => (memory, none)

/-- A search from several nodes in turn, under way. -/
structure Tour (α : Type) where
  search : Search α
  /-- The nodes to search from afterwards. -/
  todo : List α

namespace Tour

variable {α : Type} [DecidableEq α]

/-- Takes a step of the search under way. When no frame is open, goes on to the next node, unless
that has been reached before. -/
def next (g : Digraph α) (t : Tour α) : Tour α :=
  match t.search.frames, t.todo with
  | [], start :: todo =>
    { search := if t.search.state.visited start then t.search else t.search.descend g start, todo }
  | _, _ => { t with search := t.search.step g }

/-- Whether nothing is left to do. -/
def halted (t : Tour α) : Bool :=
  t.search.frames.isEmpty && t.todo.isEmpty

theorem next_of_open (g : Digraph α) {t : Tour α} (h : t.search.frames ≠ []) :
    t.next g = { t with search := t.search.step g } := by
  unfold next
  split
  · next hf _ => exact absurd hf h
  · rfl

theorem next_of_start (g : Digraph α) {t : Tour α} {start : α} {todo : List α}
    (hf : t.search.frames = []) (ht : t.todo = start :: todo) :
    t.next g =
      { search := if t.search.state.visited start then t.search else t.search.descend g start
        todo } := by
  rw [next, hf, ht]

theorem next_of_halted (g : Digraph α) {t : Tour α} (h : t.halted = true) : t.next g = t := by
  obtain ⟨hf, ht⟩ := (Bool.and_eq_true _ _).mp h
  rw [List.isEmpty_iff] at hf ht
  rw [next, hf, ht]
  dsimp only
  rw [Search.step_of_ended g hf, ← ht]

/-- The search only looks at nodes of a list, now and afterwards. -/
structure Within (nodes : List α) (t : Tour α) : Prop where
  looks : t.search.LooksWithin nodes
  todo : ∀ x ∈ t.todo, x ∈ nodes

/-- A move keeps to the list, and reaches a node of it or leaves less to do. -/
theorem next_within {g : Digraph α} {nodes : List α} (hn : g.ClosedList nodes) {t : Tour α}
    (h : t.Within nodes) (hh : t.halted = false) :
    (t.next g).Within nodes ∧
      (((t.next g).search.unreached nodes).length < (t.search.unreached nodes).length ∨
        ((t.next g).search.unreached nodes).length = (t.search.unreached nodes).length ∧
          (t.next g).search.pending + (t.next g).todo.length <
            t.search.pending + t.todo.length) := by
  by_cases hf : t.search.frames = []
  · match ht : t.todo with
    | [] => simp [halted, hf, ht] at hh
    | start :: todo =>
      have hm := h.todo
      rw [ht] at hm
      have htodo : ∀ x ∈ todo, x ∈ nodes := fun x hx => hm x (List.mem_cons_of_mem _ hx)
      rw [next_of_start g hf ht]
      cases hv : t.search.state.visited start with
      | true => exact ⟨⟨h.looks, htodo⟩, Or.inr ⟨rfl, by simp⟩⟩
      | false =>
        refine ⟨⟨fun f hm' => ?_, htodo⟩, Or.inl ?_⟩
        · rw [if_neg Bool.false_ne_true, Search.descend, hf, List.mem_singleton] at hm'
          rw [hm']
          exact hn start (hm start List.mem_cons_self)
        · exact Search.length_unreached_descend g (hm start List.mem_cons_self) hv
  · obtain ⟨hl, hd⟩ := Search.step_within hn h.looks hf
    rw [next_of_open g hf]
    exact ⟨⟨hl, h.todo⟩, hd.imp_right fun hd => ⟨hd.1, Nat.add_lt_add_right hd.2 _⟩⟩

end Tour

/-- A search from several nodes in turn for a client. -/
structure Serving (α σ ε : Type) extends Tour α where
  /-- The memory of the client. -/
  memory : σ
  /-- The failure of a client who has given up. -/
  failure? : Option ε := none

namespace Serving

variable {α σ ε : Type} [DecidableEq α]

/-- Completes the component of the root `x` and hands it over. -/
def complete (client : Client (Moment α) σ ε) (v : Serving α σ ε) (x : α) : Serving α σ ε :=
  match v.search.state.pop x with
  | (some c, state) =>
    let moment : Moment α := ⟨.emitted c, state⟩
    let (memory, failure?) := client.receive moment v.memory
    { v with
      search := { v.search with state, trace := moment :: v.search.trace }
      memory
      failure? }
  | (none, state) => { v with search := { v.search with state } }

/-- Leaves the node `x`, whose successors have all been looked at. -/
def leave (client : Client (Moment α) σ ε) (v : Serving α σ ε) (x : α) : Serving α σ ε :=
  let v := { v with search := v.search.passDown x }
  if v.search.state.isRoot x then v.complete client x else v

/-- Goes on, unless the client has given up. -/
def next (g : Digraph α) (client : Client (Moment α) σ ε) (v : Serving α σ ε) : Serving α σ ε :=
  match v.failure?, v.search.frames with
  | some _, _ => v
  | none, ⟨x, []⟩ :: below => { v with search := { v.search with frames := below } }.leave client x
  | none, _ => { v with toTour := v.toTour.next g }

/-- Whether the client has given up or nothing is left to do. -/
def halted (v : Serving α σ ε) : Bool :=
  v.failure?.isSome || v.toTour.halted

/-- Completing a component is the same whether or not it is handed over. -/
theorem search_complete (client : Client (Moment α) σ ε) (v : Serving α σ ε) (x : α) :
    (v.complete client x).toTour = { v.toTour with search := v.search.complete x } := by
  unfold complete Search.complete
  cases v.search.state.pop x with
  | mk c? state => cases c? <;> rfl

theorem search_leave (client : Client (Moment α) σ ε) (v : Serving α σ ε) (x : α) :
    (v.leave client x).toTour = { v.toTour with search := v.search.leave x } := by
  unfold leave Search.leave
  dsimp only
  split
  · exact search_complete client { v with search := v.search.passDown x } x
  · rfl

/-- As long as the client has not given up, the search goes on as it would without the client. -/
theorem toTour_next (g : Digraph α) (client : Client (Moment α) σ ε) {v : Serving α σ ε}
    (h : v.failure? = none) : (v.next g client).toTour = v.toTour.next g := by
  unfold next
  split
  · next he => cases he.symm.trans h
  · next x below _ hf =>
    rw [search_leave, Tour.next_of_open g (by rw [hf]; exact List.cons_ne_nil _ _),
      Search.step_of_finished g hf]
  · rfl

/-- Goes on until the client gives up or nothing is left to do. There is no result when that never
comes about. -/
def run? (g : Digraph α) (client : Client (Moment α) σ ε) (v : Serving α σ ε) :
    Option (Serving α σ ε) :=
  if v.halted then some v else v.next g client |>.run? g client
partial_fixpoint

theorem next_within {g : Digraph α} {nodes : List α} (hn : g.ClosedList nodes)
    (client : Client (Moment α) σ ε) {v : Serving α σ ε} (h : v.toTour.Within nodes)
    (hh : v.halted = false) :
    (v.next g client).toTour.Within nodes ∧
      (((v.next g client).search.unreached nodes).length < (v.search.unreached nodes).length ∨
        ((v.next g client).search.unreached nodes).length = (v.search.unreached nodes).length ∧
          (v.next g client).search.pending + (v.next g client).todo.length <
            v.search.pending + v.todo.length) := by
  rw [halted, Bool.or_eq_false_iff, Option.isSome_eq_false_iff, Option.isNone_iff_eq_none] at hh
  rw [toTour_next g client hh.1]
  exact Tour.next_within hn h hh.2

/-- A search for a client ends that only looks at nodes of a closed list. -/
theorem isSome_run? {g : Digraph α} {nodes : List α} (hn : g.ClosedList nodes)
    (client : Client (Moment α) σ ε) (v : Serving α σ ε) (h : v.toTour.Within nodes) :
    (run? g client v).isSome := by
  rw [run?]
  split
  · rfl
  · next hh =>
    have hw := next_within hn client h (by simpa using hh)
    exact isSome_run? hn client (v.next g client) hw.1
termination_by ((v.search.unreached nodes).length, v.search.pending + v.todo.length)
decreasing_by
  rcases hw.2 with hd | ⟨hd, hd'⟩
  · exact Prod.Lex.left _ _ hd
  · rw [Prod.lex_def]
    exact Or.inr ⟨hd, hd'⟩

end Serving

/-- Searches from each of the nodes in turn for a client, with shared bookkeeping. -/
def Digraph.serve? {α σ ε : Type} [DecidableEq α] (g : Digraph α) (client : Client (Moment α) σ ε)
    (starts : List α) (memory : σ) (state : SearchState α := {}) : Option (Serving α σ ε) :=
  Serving.run? g client { search := { state }, todo := starts, memory }

namespace FiniteDigraph

variable {α σ ε : Type} [DecidableEq α]

theorem isSome_serve? (g : FiniteDigraph α) (client : Client (Moment α) σ ε) (starts : List α)
    (memory : σ) (state : SearchState α) : (g.serve? client starts memory state).isSome := by
  obtain ⟨targets, ht⟩ := g.exists_targets
  have hn : g.ClosedList (starts ++ targets) := fun x _ y hy =>
    List.mem_append_right _ (ht x y hy)
  apply Serving.isSome_run? hn
  exact ⟨fun f hf => absurd hf List.not_mem_nil, fun x hx => List.mem_append_left _ hx⟩

/-- Searches from each of the nodes in turn for a client, with shared bookkeeping. -/
def serve (g : FiniteDigraph α) (client : Client (Moment α) σ ε) (starts : List α) (memory : σ)
    (state : SearchState α := {}) : Serving α σ ε :=
  (g.serve? client starts memory state).get (g.isSome_serve? client starts memory state)

end FiniteDigraph

end TypeAlias
