import Mathlib.Data.List.Chain
import TypeAlias.Proofs.Graph.StrictSearch

/-!
# The loop of a search

A search may begin with any bookkeeping in which no node is on the stack and nothing leads from the
nodes reached to others. Whenever it is about to take a step, its frames are a path of edges from
the start node, and the stack holds the nodes of this path and others that were reached from it and
lead back to it. What a step looks up is therefore there, and a root is taken off the stack together
with the nodes reached after it.
-/

namespace TypeAlias

variable {α : Type} [DecidableEq α]

/-! ## Paths on the stack -/

section Stack

variable {g : Digraph α} {s : SearchState α} {f : Frame α} {frames : List (Frame α)}
  {stack : List α} {v : α}

/-- There is an edge to the node of each frame from the node of the next. -/
theorem Layers.isChain_nodes (h : Layers g s frames stack) :
    (frames.map Frame.node).IsChain fun x y => g.Edge y x := by
  induction frames generalizing stack with
  | nil => exact List.isChain_nil
  | cons f frames ih =>
    obtain ⟨_, _, _, _, he, hb⟩ := h
    rw [List.map_cons, List.isChain_cons]
    refine ⟨fun x hx => ?_, ih hb⟩
    rw [List.head?_map] at hx
    obtain ⟨p, hp, rfl⟩ := Option.mem_map.mp hx
    exact he p hp

/-- The nodes of the frames are on the stack, in the same order. -/
theorem Layers.sublist_nodes (h : Layers g s frames stack) :
    (frames.map Frame.node).Sublist stack := by
  induction frames generalizing stack with
  | nil => exact List.nil_sublist _
  | cons f frames ih =>
    obtain ⟨above, below, rfl, _, _, hb⟩ := h
    exact ((ih hb).cons_cons f.node).trans (List.sublist_append_right _ _)

/-- The node of every frame leads to the node of the topmost one. -/
theorem Layers.reaches_top (h : Layers g s (f :: frames) stack) :
    ∀ p ∈ f :: frames, g.Reaches p.node f.node := by
  induction frames generalizing f stack with
  | nil =>
    intro p hp
    rw [List.mem_singleton.mp hp]
  | cons q frames ih =>
    obtain ⟨_, _, _, _, he, hb⟩ := h
    have hedge : g.Edge q.node f.node := he q rfl
    intro p hp
    rcases List.mem_cons.mp hp with rfl | hp
    · exact Relation.ReflTransGen.refl
    · exact (ih hb p hp).tail hedge

/-- A node on the stack is the node of a frame, or leads back further than to itself. -/
theorem Layers.frame_or_notRoot (h : Layers g s frames stack) (hv : v ∈ stack) :
    (∃ p ∈ frames, p.node = v) ∨ s.lowlink v < s.index v := by
  induction frames generalizing stack with
  | nil =>
    have hn : stack = [] := h
    rw [hn] at hv
    exact absurd hv List.not_mem_nil
  | cons f frames ih =>
    obtain ⟨above, below, rfl, hl, _, hb⟩ := h
    rcases List.mem_append.mp hv with hv | hv
    · exact Or.inr (hl.notRoot v hv)
    · rcases List.mem_cons.mp hv with rfl | hv
      · exact Or.inl ⟨f, List.mem_cons_self, rfl⟩
      · rcases ih hb hv with ⟨p, hp, hpv⟩ | hlow
        · exact Or.inl ⟨p, List.mem_cons_of_mem _ hp, hpv⟩
        · exact Or.inr hlow

/-- Of some nodes, the last one whose index is not above a bound. -/
structure Nearest (s : SearchState α) (nodes : List α) (bound : Nat) (x : α) : Prop where
  mem : x ∈ nodes
  le : s.index x ≤ bound
  max : ∀ y ∈ nodes, s.index y ≤ bound → s.index y ≤ s.index x

/-- A node on the stack was reached from the nearest node of a frame, the one of its own layer. -/
theorem Layers.reached_from_nearest (h : Layers g s frames stack)
    (hs : stack.Pairwise fun x y => s.index y < s.index x) (hv : v ∈ stack) :
    ∃ x, Nearest s (frames.map Frame.node) (s.index v) x ∧ g.Reaches x v := by
  induction frames generalizing stack with
  | nil =>
    have hn : stack = [] := h
    rw [hn] at hv
    exact absurd hv List.not_mem_nil
  | cons f frames ih =>
    obtain ⟨above, below, rfl, hl, _, hb⟩ := h
    obtain ⟨-, hbelow, habove⟩ := List.pairwise_append.mp hs
    obtain ⟨hroot, hbelow⟩ := List.pairwise_cons.mp hbelow
    -- The node of the topmost frame is the nearest for all that is not below it.
    have htop (hle : s.index f.node ≤ s.index v) :
        Nearest s ((f :: frames).map Frame.node) (s.index v) f.node := by
      refine ⟨List.mem_cons_self, hle, fun y hy _ => ?_⟩
      rcases List.mem_cons.mp hy with rfl | hy
      · exact Nat.le_refl _
      · exact (hroot y (hb.sublist_nodes.subset hy)).le
    rcases List.mem_append.mp hv with hva | hvb
    · exact ⟨f.node, htop (habove v hva f.node List.mem_cons_self).le, hl.reached v hva⟩
    · rcases List.mem_cons.mp hvb with rfl | hvb
      · exact ⟨f.node, htop (Nat.le_refl _), Relation.ReflTransGen.refl⟩
      · obtain ⟨x, hx, hr⟩ := ih hb hbelow hvb
        refine ⟨x, ⟨List.mem_cons_of_mem _ hx.mem, hx.le, fun y hy hle => ?_⟩, hr⟩
        rcases List.mem_cons.mp hy with rfl | hy
        · exact absurd hle (Nat.not_le.mpr (hroot v hvb))
        · exact hx.max y hy hle

/-- Every node on the stack leads to the node of a frame that was reached no later: it is the node
of a frame, or leads back to a node with a lower index. -/
theorem Nested.leadsBack_to_frame (h : Nested g s frames) (hv : v ∈ s.stack) :
    ∃ p ∈ frames, s.index p.node ≤ s.index v ∧ g.Reaches v p.node := by
  induction hn : s.index v using Nat.strongRecOn generalizing v with
  | ind n ih =>
    rcases h.layers.frame_or_notRoot hv with ⟨p, hp, rfl⟩ | hlow
    · exact ⟨p, hp, hn.le, Relation.ReflTransGen.refl⟩
    · obtain ⟨w, hw, hwi, hvw⟩ := h.leadsBack v hv
      obtain ⟨p, hp, hle, hwp⟩ := ih (s.index w) (by omega) hw rfl
      exact ⟨p, hp, by omega, hvw.trans hwp⟩

/-- Every node on the stack leads to the node of the topmost frame. -/
theorem Nested.reaches_top (h : Nested g s (f :: frames)) (hv : v ∈ s.stack) :
    g.Reaches v f.node := by
  obtain ⟨p, hp, -, hvp⟩ := h.leadsBack_to_frame hv
  exact hvp.trans (h.layers.reaches_top p hp)

end Stack

/-! ## What comes off the stack -/

/-- A node on the stack is taken off together with the nodes that were reached after it. -/
theorem Nested.pop_eq {g : Digraph α} {s : SearchState α} {frames : List (Frame α)} {x : α}
    (h : Nested g s frames) (hx : x ∈ s.stack) :
    ∃ t, s.pop x = (some (s.stack.filter fun y => s.index x ≤ s.index y).reverse, t) ∧
      t.stack = s.stack.filter fun y => s.index y < s.index x := by
  obtain ⟨above, below, hst⟩ := List.append_of_mem hx
  have hs := h.sorted
  rw [hst, List.pairwise_append, List.pairwise_cons] at hs
  obtain ⟨-, ⟨hbelow, -⟩, habove⟩ := hs
  have hx : x ∉ above := fun hm => Nat.lt_irrefl _ (habove x hm x List.mem_cons_self)
  have hhigh : s.stack.filter (fun y => s.index x ≤ s.index y) = above ++ [x] := by
    have ha : above.filter (fun y => s.index x ≤ s.index y) = above := by
      apply List.filter_eq_self.mpr
      exact fun y hy => decide_eq_true (habove y hy x List.mem_cons_self).le
    have hb : below.filter (fun y => s.index x ≤ s.index y) = [] := by
      apply List.filter_eq_nil_iff.mpr
      intro y hy
      rw [decide_eq_true_eq]
      exact Nat.not_le.mpr (hbelow y hy)
    rw [hst, List.filter_append, List.filter_cons_of_pos (by simp), ha, hb]
  have hlow : s.stack.filter (fun y => s.index y < s.index x) = below := by
    have ha : above.filter (fun y => s.index y < s.index x) = [] := by
      apply List.filter_eq_nil_iff.mpr
      intro y hy
      rw [decide_eq_true_eq]
      exact Nat.not_lt.mpr (habove y hy x List.mem_cons_self).le
    have hb : below.filter (fun y => s.index y < s.index x) = below := by
      apply List.filter_eq_self.mpr
      exact fun y hy => decide_eq_true (hbelow y hy)
    rw [hst, List.filter_append, List.filter_cons_of_neg (by simp), ha, hb, List.nil_append]
  rw [hhigh, hlow, List.reverse_append]
  exact ⟨_, SearchState.pop_eq hst hx, rfl⟩

/-! ## The bookkeeping a search begins with -/

namespace SearchState

/-- The bookkeeping that its operations make, called in any order and on any nodes. -/
inductive Made : SearchState α → Prop where
  | fresh : Made {}
  | enter {s : SearchState α} (x : α) : Made s → Made (s.enter x)
  | noteEdge {s : SearchState α} (x y : α) : Made s → Made (s.noteEdge x y)
  | lowerToIndex {s : SearchState α} (x y : α) : Made s → Made (s.lowerToIndex x y)
  | lowerToLowlink {s : SearchState α} (x y : α) : Made s → Made (s.lowerToLowlink x y)
  | pop {s : SearchState α} (x : α) : Made s → Made (s.pop x).2

/-- What is taken to be on the stack when a node has been taken off was so before and is left. -/
theorem mem_stack_pop {s : SearchState α} {x : α} (h : ∀ y ∈ s.onStack, y ∈ s.stack) :
    ∀ y ∈ (s.pop x).2.onStack, y ∈ (s.pop x).2.stack := by
  have hsplit := List.takeWhile_append_dropWhile (p := (· ≠ x)) (l := s.stack)
  unfold pop
  dsimp only
  split
  · next hd =>
    rw [hd, List.append_nil] at hsplit
    intro y hy
    obtain ⟨hy, hn⟩ := List.mem_filter.mp hy
    rw [hsplit] at hn
    exact absurd (h y hy) (of_decide_eq_true hn)
  · next top below hd =>
    rw [hd] at hsplit
    intro y hy
    obtain ⟨hy, hn⟩ := List.mem_filter.mp hy
    obtain ⟨hya, hyt⟩ := of_decide_eq_true hn
    have hm := h y hy
    rw [← hsplit, List.mem_append, List.mem_cons] at hm
    exact (hm.resolve_left hya).resolve_left hyt

/-- What is taken to be on the stack is there. -/
theorem Made.mem_stack {s : SearchState α} (h : s.Made) : ∀ x ∈ s.onStack, x ∈ s.stack := by
  induction h with
  | fresh => exact fun x hx => hx
  | enter x _ ih =>
    intro y hy
    rcases (mem_onStack_enter _ _ _).mp hy with rfl | hy
    · exact List.mem_cons_self
    · exact List.mem_cons_of_mem _ (ih y hy)
  | noteEdge x y _ ih =>
    rw [noteEdge_eq]
    exact ih
  | @lowerToIndex s x y _ ih =>
    rcases s.lowerToIndex_cases x y with he | ⟨bound, he⟩
    · rw [he]
      exact ih
    · rw [he]
      exact ih
  | @lowerToLowlink s x y _ ih =>
    rcases s.lowerToLowlink_cases x y with he | ⟨bound, he⟩
    · rw [he]
      exact ih
    · rw [he]
      exact ih
  | pop x _ ih => exact mem_stack_pop ih

/-- No node is on the stack, and nothing leads from the nodes reached to others. -/
structure Idle (g : Digraph α) (s : SearchState α) : Prop where
  stack : s.stack = []
  onStack : ∀ x ∈ s.onStack, x ∈ s.stack
  closed : ∀ x, s.visited x = true → ∀ y ∈ g.succ x, s.visited y = true

variable {g : Digraph α} {s : SearchState α}

theorem Idle.nested (h : s.Idle g) : Nested g s [] := by
  have hn (x : α) : x ∉ s.stack := by
    rw [h.stack]
    exact List.not_mem_nil
  constructor
  case layers => exact h.stack
  case sorted =>
    rw [h.stack]
    exact List.Pairwise.nil
  case onStack_iff => exact fun x => ⟨h.onStack x, fun hx => absurd hx (hn x)⟩
  case visited => exact fun x hx => absurd hx (hn x)
  case index_lt_counter => exact fun x hx => absurd hx (hn x)
  case lowlink_le => exact fun x hx => absurd hx (hn x)
  case leadsBack => exact fun x hx => absurd hx (hn x)
  case closed => exact fun x hx _ y hy => ⟨h.closed x hx y hy, hn y⟩

end SearchState

/-- What a search has left that has ended. -/
theorem Nested.idle {g : Digraph α} {s : SearchState α} (h : Nested g s []) : s.Idle g := by
  have hst : s.stack = [] := h.layers
  refine ⟨hst, fun x hx => (h.onStack_iff x).mp hx, fun x hx y hy => ?_⟩
  refine (h.closed x hx ?_ y hy).1
  rw [hst]
  exact List.not_mem_nil

/-! ## One step and all of them -/

namespace Search

/-- The nodes of the frames, from the first one opened to the topmost. -/
def path (s : Search α) : List α :=
  (s.frames.map Frame.node).reverse

omit [DecidableEq α] in
theorem mem_path {s : Search α} {x : α} : x ∈ s.path ↔ x ∈ s.frames.map Frame.node :=
  List.mem_reverse

/-- A search that begins at a node with earlier bookkeeping, after a number of steps. -/
def stage (g : Digraph α) (earlier : SearchState α) (start : α) (k : Nat) : Search α :=
  (step g)^[k] (descend g { state := earlier } start)

/-- What holds of a search from a node whenever it is about to take a step. -/
structure Orderly (g : Digraph α) (start : α) (s : Search α) : Prop where
  /-- The nodes of the frames are a path of edges from the start node. -/
  isChain : s.path.IsChain g.Edge
  head : ∀ x ∈ s.path.head?, x = start
  mem_stack : ∀ x ∈ s.path, x ∈ s.state.stack
  ascending : s.path.Pairwise fun x y => s.state.index x < s.state.index y
  nodup : s.state.stack.Nodup
  sorted : s.state.stack.reverse.Pairwise fun x y => s.state.index x < s.state.index y
  onStack_iff : ∀ x, x ∈ s.state.onStack ↔ x ∈ s.state.stack
  /-- A node on the stack was reached from the nearest node of the path. -/
  reached : ∀ v ∈ s.state.stack, ∃ x, Nearest s.state s.path (s.state.index v) x ∧ g.Reaches x v
  leadsBack : ∀ v ∈ s.state.stack, ∃ x ∈ s.path, s.state.index x ≤ s.state.index v ∧ g.Reaches v x
  /-- Nothing leads from the nodes that have left the stack to others. -/
  closed : ∀ x, s.state.visited x = true → x ∉ s.state.stack →
    ∀ y ∈ g.succ x, s.state.visited y = true ∧ y ∉ s.state.stack

/-- What a step does is there to be done. -/
structure Safe (g : Digraph α) (s : Search α) : Prop where
  /-- No mark is looked up that has not been made, and nothing is taken from an empty stack. -/
  strict : s.stepStrict g = .ok (s.step g)
  /-- When a root is left, the nodes with its index and with higher ones are taken off the stack,
  and all others stay. -/
  pop : ∀ x below u, s.frames = ⟨x, []⟩ :: below →
    u = (passDown { s with frames := below } x).state → u.isRoot x = true →
    ∃ t, u.pop x = (some (u.stack.filter fun y => u.index x ≤ u.index y).reverse, t) ∧
      t.stack = u.stack.filter fun y => u.index y < u.index x

variable {g : Digraph α} {start : α} {s : Search α}

/-- The bottommost frame stays that of the start node. -/
theorem bottom_step (h : ∀ x ∈ (s.frames.map Frame.node).getLast?, x = start) :
    ∀ x ∈ ((s.step g).frames.map Frame.node).getLast?, x = start := by
  match hf : s.frames with
  | [] =>
    rw [step_of_ended g hf]
    exact h
  | ⟨x, []⟩ :: below =>
    rw [step_of_finished g hf, frames_leave]
    rw [hf] at h
    match below with
    | [] => exact fun x hx => absurd hx (Option.not_mem_none x)
    | _ :: _ => exact h
  | ⟨x, y :: rest⟩ :: below =>
    rw [hf] at h
    cases hv : s.state.visited y with
    | true =>
      rw [step_of_visited g hf hv]
      exact h
    | false =>
      rw [step_of_not_visited g hf hv]
      exact h

/-- The stack and the frames tell all of it. -/
theorem orderly (h : Nested g s.state s.frames)
    (hb : ∀ x ∈ (s.frames.map Frame.node).getLast?, x = start) : s.Orderly g start := by
  have hsub := h.layers.sublist_nodes
  constructor
  case isChain => exact List.isChain_reverse.mpr h.layers.isChain_nodes
  case head =>
    rw [path, List.head?_reverse]
    exact hb
  case mem_stack => exact fun x hx => hsub.subset (mem_path.mp hx)
  case ascending => exact List.pairwise_reverse.mpr (h.sorted.sublist hsub)
  case nodup => exact h.stack_nodup
  case sorted => exact List.pairwise_reverse.mpr h.sorted
  case onStack_iff => exact h.onStack_iff
  case reached =>
    intro v hv
    obtain ⟨x, hx, hr⟩ := h.layers.reached_from_nearest h.sorted hv
    exact ⟨x, ⟨mem_path.mpr hx.mem, hx.le, fun y hy => hx.max y (mem_path.mp hy)⟩, hr⟩
  case leadsBack =>
    intro v hv
    obtain ⟨p, hp, hle, hr⟩ := h.leadsBack_to_frame hv
    exact ⟨p.node, mem_path.mpr (List.mem_map_of_mem hp), hle, hr⟩
  case closed => exact h.closed

theorem safe (h : Nested g s.state s.frames) : s.Safe g := by
  refine ⟨stepStrict_eq h, ?_⟩
  rintro x below u hf rfl -
  rw [hf] at h
  have hu := (Nested.passDown (s := { s with frames := below }) h).1
  exact hu.pop_eq hu.node_mem

theorem state_complete (s : Search α) (x : α) : (s.complete x).state = (s.state.pop x).2 := by
  unfold complete
  split <;> next h => rw [h]

theorem made_leave (h : s.state.Made) (x : α) : (s.leave x).state.Made := by
  have hp : (s.passDown x).state.Made := by
    unfold passDown
    split
    · exact h
    · exact h.lowerToLowlink _ x
  unfold leave
  dsimp only
  split
  · rw [state_complete]
    exact hp.pop x
  · exact hp

/-- A step makes what the operations of the bookkeeping make. -/
theorem made_step (h : s.state.Made) (g : Digraph α) : (s.step g).state.Made := by
  match hf : s.frames with
  | [] =>
    rw [step_of_ended g hf]
    exact h
  | ⟨x, []⟩ :: below =>
    rw [step_of_finished g hf]
    exact made_leave (s := { s with frames := below }) h x
  | ⟨x, y :: rest⟩ :: below =>
    cases hv : s.state.visited y with
    | true =>
      rw [step_of_visited g hf hv]
      exact (h.noteEdge x y).lowerToIndex x y
    | false =>
      rw [step_of_not_visited g hf hv]
      exact (h.noteEdge x y).enter y

theorem stage_succ (g : Digraph α) (earlier : SearchState α) (start : α) (k : Nat) :
    stage g earlier start (k + 1) = (stage g earlier start k).step g :=
  Function.iterate_succ_apply' _ _ _

/-- The invariant holds at every stage. -/
theorem nested_stage {earlier : SearchState α} (h : earlier.Idle g)
    (hs : earlier.visited start = false) (k : Nat) :
    Nested g (stage g earlier start k).state (stage g earlier start k).frames ∧
      ∀ x ∈ ((stage g earlier start k).frames.map Frame.node).getLast?, x = start := by
  induction k with
  | zero =>
    constructor
    · exact h.nested.enter hs fun p hp => absurd hp (Option.not_mem_none p)
    · intro x hx
      exact (Option.mem_some.mp hx).symm
  | succ k ih =>
    rw [stage_succ]
    exact ⟨ih.1.step, bottom_step ih.2⟩

/-- A search that ends does so after some number of steps. -/
theorem exists_iterate_of_run? {r : Search α} (hr : run? g s = some r) :
    ∃ k, (step g)^[k] s = r := by
  apply run?.partial_correctness g (fun s r => ∃ k, (step g)^[k] s = r) _ s r hr
  intro run ih s r hr
  split at hr
  · cases hr
    exact ⟨0, rfl⟩
  · obtain ⟨k, hk⟩ := ih _ _ hr
    exact ⟨k + 1, hk⟩

end Search

/-- The loop of a search from a new node. The search may begin with any bookkeeping in which the
stack and the set of nodes taken to be on it are empty and nothing leads from the nodes reached to
others; that the set is empty with the stack holds of all bookkeeping that the operations make, and
a step calls no others. Then, before each step, the frames are a path of edges from the start node,
on the stack by increasing index; every node on the stack was reached from the nearest node of the
path and leads to one that was reached no later; and nothing leads from the nodes off the stack to
others. No step runs into a fault, and a root comes off the stack with the nodes reached after it. A
search that ends has gone through nothing else, and when no frame is left another one may begin. -/
theorem Search.orderly_stage :
    (∀ s : Search α, s.state.Made →
      (∀ x ∈ s.state.onStack, x ∈ s.state.stack) ∧ ∀ g, (s.step g).state.Made) ∧
    ∀ (g : Digraph α) (earlier : SearchState α) (start : α), earlier.Idle g →
      earlier.visited start = false →
        (∀ k, (stage g earlier start k).Orderly g start ∧ (stage g earlier start k).Safe g ∧
          ((stage g earlier start k).frames = [] → (stage g earlier start k).state.Idle g)) ∧
        ∀ r, visit? g { state := earlier } start = some r →
          r.frames = [] ∧ ∃ k, stage g earlier start k = r := by
  refine ⟨fun s h => ⟨h.mem_stack, made_step h⟩, ?_⟩
  intro g earlier start h hs
  constructor
  · intro k
    obtain ⟨hn, hb⟩ := nested_stage h hs k
    refine ⟨orderly hn hb, safe hn, fun hf => ?_⟩
    rw [hf] at hn
    exact hn.idle
  · intro r hr
    rw [visit?, hs, if_neg Bool.false_ne_true] at hr
    exact ⟨frames_run? hr, exists_iterate_of_run? hr⟩

theorem Search.orderly_stage_twoCycles :
    ∃ earlier : SearchState Nat, earlier.Made ∧ earlier.visited 7 = true ∧
      earlier.Idle Digraph.twoCycles.toDigraph ∧ earlier.visited 1 = false ∧
      ∀ k, (stage Digraph.twoCycles.toDigraph earlier 1 k).Orderly Digraph.twoCycles.toDigraph 1 ∧
        (stage Digraph.twoCycles.toDigraph earlier 1 k).Safe Digraph.twoCycles.toDigraph := by
  have hm : ((SearchState.enter ({} : SearchState Nat) 7).pop 7).2.Made :=
    (SearchState.Made.fresh.enter 7).pop 7
  have hi : ((SearchState.enter ({} : SearchState Nat) 7).pop 7).2.Idle
      Digraph.twoCycles.toDigraph := by
    refine ⟨rfl, (orderly_stage.1 { state := _ } hm).1, fun x hx y hy => ?_⟩
    obtain rfl : x = 7 := List.mem_singleton.mp (SearchState.visited_iff.mp hx)
    exact absurd hy List.not_mem_nil
  refine ⟨_, hm, by decide, hi, by decide, fun k => ?_⟩
  obtain ⟨ho, hsafe, -⟩ := (orderly_stage.2 _ _ 1 hi (by decide)).1 k
  exact ⟨ho, hsafe⟩

end TypeAlias
