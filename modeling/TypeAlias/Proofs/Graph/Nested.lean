import TypeAlias.Proofs.Graph.Bookkeeping
import TypeAlias.Proofs.Graph.Reachability

/-!
# The stack of a search

The open frames cut the stack into layers: a frame's node, and above it the finished nodes that were
reached from it. All edges looked at that lead below a layer are accounted for in the lowlink of its
frame's node. A node that leads back no further than to itself therefore closes a component.

Nothing is said here of the nodes that have left the stack but that they lead nowhere else: their
numbers are never looked at, so a search may begin with any bookkeeping in which the stack is empty.
-/

namespace TypeAlias

variable {α : Type} [DecidableEq α]

/-- An edge to `y` has been looked at and taken into account by the layer of `root`. -/
structure Looked (s : SearchState α) (root : α) (below : List α) (y : α) : Prop where
  visited : s.visited y = true
  low : y ∈ below → s.lowlink root ≤ s.index y

/-- What a search knows of the layer of a frame, with finished nodes above its node and the other
layers below. -/
structure Layer (g : Digraph α) (s : SearchState α) (f : Frame α) (above below : List α) :
    Prop where
  /-- The successors in front of the rest have been looked at. -/
  looked : ∃ seen, g.succ f.node = seen ++ f.rest ∧ ∀ y ∈ seen, Looked s f.node below y
  finished : ∀ v ∈ above, ∀ y ∈ g.succ v, Looked s f.node below y
  reached : ∀ v ∈ above, g.Reaches f.node v
  notRoot : ∀ v ∈ above, s.lowlink v < s.index v

/-- The stack is cut into the layers of the frames, and each frame was opened from the next. -/
def Layers (g : Digraph α) (s : SearchState α) : List (Frame α) → List α → Prop
  | [], stack => stack = []
  | f :: fs, stack => ∃ above below, stack = above ++ f.node :: below ∧
      Layer g s f above below ∧ (∀ p ∈ fs.head?, f.node ∈ g.succ p.node) ∧ Layers g s fs below

/-- What holds of the stack of a search with open frames. -/
structure Nested (g : Digraph α) (s : SearchState α) (frames : List (Frame α)) : Prop where
  layers : Layers g s frames s.stack
  sorted : s.stack.Pairwise fun x y => s.index y < s.index x
  onStack_iff : ∀ x, x ∈ s.onStack ↔ x ∈ s.stack
  visited : ∀ x ∈ s.stack, s.visited x = true
  index_lt_counter : ∀ x ∈ s.stack, s.index x < s.counter
  lowlink_le : ∀ x ∈ s.stack, s.lowlink x ≤ s.index x
  /-- A lowlink is the index of a node that the search knows to be within reach. -/
  leadsBack : ∀ v ∈ s.stack, ∃ w ∈ s.stack, s.index w = s.lowlink v ∧ g.Reaches v w
  /-- Nothing leads from the completed components to other nodes. -/
  closed : ∀ x, s.visited x = true → x ∉ s.stack →
    ∀ y ∈ g.succ x, s.visited y = true ∧ y ∉ s.stack

section Layers

variable {g : Digraph α} {s t : SearchState α}

/-- Layers stay as they are when nodes are reached and lowlinks lowered. -/
theorem Layers.mono (hv : ∀ x, s.visited x = true → t.visited x = true) {frames : List (Frame α)}
    {stack : List α} (hm : ∀ x ∈ stack, t.index x = s.index x ∧ t.lowlink x ≤ s.lowlink x)
    (h : Layers g s frames stack) : Layers g t frames stack := by
  induction frames generalizing stack with
  | nil => exact h
  | cons f fs ih =>
    obtain ⟨above, below, rfl, hf, he, hb⟩ := h
    have hroot := hm f.node (List.mem_append_right _ List.mem_cons_self)
    have hbelow : ∀ x ∈ below, t.index x = s.index x ∧ t.lowlink x ≤ s.lowlink x := fun x hx =>
      hm x (List.mem_append_right _ (List.mem_cons_of_mem _ hx))
    have look {y : α} (hy : Looked s f.node below y) : Looked t f.node below y := by
      refine ⟨hv y hy.visited, fun hyb => ?_⟩
      rw [(hbelow y hyb).1]
      exact hroot.2.trans (hy.low hyb)
    obtain ⟨seen, hs, hseen⟩ := hf.looked
    refine ⟨above, below, rfl, ?_, he, ih hbelow hb⟩
    constructor
    · exact ⟨seen, hs, fun y hy => look (hseen y hy)⟩
    · exact fun v hva y hy => look (hf.finished v hva y hy)
    · exact hf.reached
    · intro v hva
      have hm := hm v (List.mem_append_left _ hva)
      rw [hm.1]
      exact hm.2.trans_lt (hf.notRoot v hva)

/-- The node of a frame is on the stack. -/
theorem Layers.node_mem {frames : List (Frame α)} {stack : List α} (h : Layers g s frames stack)
    {f : Frame α} (hf : f ∈ frames) : f.node ∈ stack := by
  induction frames generalizing stack with
  | nil => exact absurd hf List.not_mem_nil
  | cons p fs ih =>
    obtain ⟨above, below, rfl, _, _, hb⟩ := h
    rcases List.mem_cons.mp hf with rfl | hf
    · exact List.mem_append_right _ List.mem_cons_self
    · exact List.mem_append_right _ (List.mem_cons_of_mem _ (ih hb hf))

end Layers

namespace Nested

variable {g : Digraph α} {s : SearchState α} {frames : List (Frame α)}

theorem stack_nodup (h : Nested g s frames) : s.stack.Nodup := by
  apply h.sorted.imp
  rintro x y hlt rfl
  exact Nat.lt_irrefl _ hlt

/-- Reaching a new node, from the node of the topmost frame if there is one. -/
theorem enter (h : Nested g s frames) {x : α} (hx : s.visited x = false)
    (he : ∀ p ∈ frames.head?, x ∈ g.succ p.node) :
    Nested g (s.enter x) (⟨x, g.succ x⟩ :: frames) := by
  have hne {y : α} (hy : s.visited y = true) : y ≠ x := by
    rintro rfl
    rw [hx] at hy
    exact Bool.false_ne_true hy
  have hi {y : α} (hy : s.visited y = true) : (s.enter x).index y = s.index y := by
    rw [SearchState.index_enter, if_neg (hne hy)]
  have hl {y : α} (hy : s.visited y = true) : (s.enter x).lowlink y = s.lowlink y := by
    rw [SearchState.lowlink_enter, if_neg (hne hy)]
  have hix : (s.enter x).index x = s.counter := by rw [SearchState.index_enter, if_pos rfl]
  have hlx : (s.enter x).lowlink x = s.counter := by rw [SearchState.lowlink_enter, if_pos rfl]
  have hv {y : α} (hy : s.visited y = true) : (s.enter x).visited y = true :=
    (SearchState.visited_enter _ _ _).mpr (Or.inr hy)
  constructor
  case layers =>
    refine ⟨[], s.stack, rfl, ?_, he, ?_⟩
    · refine ⟨⟨[], rfl, ?_⟩, ?_, ?_, ?_⟩ <;> exact fun y hy => absurd hy List.not_mem_nil
    · apply h.layers.mono
      · exact fun y hy => hv hy
      · intro y hy
        exact ⟨hi (h.visited y hy), (hl (h.visited y hy)).le⟩
  case sorted =>
    apply List.pairwise_cons.mpr
    constructor
    · intro y hy
      rw [hi (h.visited y hy), hix]
      exact h.index_lt_counter y hy
    · apply h.sorted.imp_of_mem
      intro y z hy hz hlt
      rwa [hi (h.visited y hy), hi (h.visited z hz)]
  case onStack_iff =>
    intro y
    rw [SearchState.mem_onStack_enter, h.onStack_iff]
    exact List.mem_cons.symm
  case visited =>
    intro y hy
    rw [SearchState.visited_enter]
    rcases List.mem_cons.mp hy with hy | hy
    · exact Or.inl hy
    · exact Or.inr (h.visited y hy)
  case index_lt_counter =>
    intro y hy
    show (s.enter x).index y < s.counter + 1
    rcases List.mem_cons.mp hy with rfl | hy
    · omega
    · have := h.index_lt_counter y hy
      rw [hi (h.visited y hy)]
      omega
  case lowlink_le =>
    intro y hy
    rcases List.mem_cons.mp hy with rfl | hy
    · rw [hix, hlx]
    · rw [hi (h.visited y hy), hl (h.visited y hy)]
      exact h.lowlink_le y hy
  case leadsBack =>
    intro v hm
    rcases List.mem_cons.mp hm with rfl | hm
    · exact ⟨v, List.mem_cons_self, by rw [hix, hlx], Relation.ReflTransGen.refl⟩
    · obtain ⟨w, hw, hwi, hr⟩ := h.leadsBack v hm
      refine ⟨w, List.mem_cons_of_mem _ hw, ?_, hr⟩
      rw [hi (h.visited w hw), hl (h.visited v hm), hwi]
  case closed =>
    intro y hy hn z hz
    have hyx : y ≠ x := fun e => hn (e ▸ List.mem_cons_self)
    have hyv : s.visited y = true :=
      ((SearchState.visited_enter _ _ _).mp hy).resolve_left hyx
    obtain ⟨hzv, hzs⟩ := h.closed y hyv (fun hm => hn (List.mem_cons_of_mem _ hm)) z hz
    refine ⟨hv hzv, ?_⟩
    intro hm
    rcases List.mem_cons.mp hm with rfl | hm
    · exact hne hzv rfl
    · exact hzs hm

/-- Noting an edge has nothing to do with the stack. -/
theorem noteEdge (h : Nested g s frames) (x y : α) : Nested g (s.noteEdge x y) frames := by
  have hlayers : Layers g { s with loops := (s.noteEdge x y).loops } frames s.stack := by
    apply h.layers.mono
    · exact fun _ hz => hz
    · exact fun _ _ => ⟨rfl, Nat.le_refl _⟩
  rw [SearchState.noteEdge_eq]
  exact { h with layers := hlayers }

/-- Lowering a node to the index of a node on the stack that is within its reach. -/
theorem lower (h : Nested g s frames) {x w : α} (hw : w ∈ s.stack) (hr : g.Reaches x w) :
    Nested g (s.lower x (s.index w)) frames := by
  have hi (y : α) : (s.lower x (s.index w)).index y = s.index y := SearchState.index_lower _ _ _ _
  have hv (y : α) : (s.lower x (s.index w)).visited y = s.visited y :=
    SearchState.visited_lower _ _ _ _
  have hl (y : α) : (s.lower x (s.index w)).lowlink y ≤ s.lowlink y :=
    SearchState.lowlink_lower_le _ _ _ _
  constructor
  case layers =>
    apply h.layers.mono
    · exact fun y hy => (hv y).trans hy
    · exact fun y _ => ⟨hi y, hl y⟩
  case sorted =>
    apply h.sorted.imp
    intro y z hlt
    rwa [hi, hi]
  case onStack_iff => exact h.onStack_iff
  case visited => exact fun y hy => (hv y).trans (h.visited y hy)
  case index_lt_counter => exact fun y hy => (hi y).trans_lt (h.index_lt_counter y hy)
  case lowlink_le =>
    intro y hy
    rw [hi]
    exact (hl y).trans (h.lowlink_le y hy)
  case leadsBack =>
    intro v hm
    rw [SearchState.lowlink_lower]
    split
    · next e =>
      subst e
      rcases Nat.le_total (s.lowlink v) (s.index w) with hle | hle
      · obtain ⟨u, hu, hui, hur⟩ := h.leadsBack v hm
        refine ⟨u, hu, ?_, hur⟩
        rw [hi, hui, Nat.min_eq_left hle]
      · refine ⟨w, hw, ?_, hr⟩
        rw [hi, Nat.min_eq_right hle]
    · obtain ⟨u, hu, hui, hur⟩ := h.leadsBack v hm
      exact ⟨u, hu, (hi u).trans hui, hur⟩
  case closed =>
    intro y hy hn z hz
    obtain ⟨hzv, hzs⟩ := h.closed y ((hv y).symm.trans hy) hn z hz
    exact ⟨(hv z).trans hzv, hzs⟩

end Nested

/-- A frame moves on past a successor that has been taken into account. -/
theorem Layer.advance {g : Digraph α} {s : SearchState α} {x y : α} {rest above below : List α}
    (h : Layer g s ⟨x, y :: rest⟩ above below) (hy : Looked s x below y) :
    Layer g s ⟨x, rest⟩ above below := by
  obtain ⟨seen, hsucc, hseen⟩ := h.looked
  refine { h with looked := ⟨seen ++ [y], ?_, ?_⟩ }
  · rw [hsucc, List.append_assoc]
    rfl
  · intro z hz
    rcases List.mem_append.mp hz with hz | hz
    · exact hseen z hz
    · rw [List.mem_singleton.mp hz]
      exact hy

namespace Nested

variable {g : Digraph α} {s : SearchState α} {x y : α} {rest : List α} {fs : List (Frame α)}

theorem node_mem (h : Nested g s (⟨x, rest⟩ :: fs)) : x ∈ s.stack :=
  h.layers.node_mem (f := ⟨x, rest⟩) List.mem_cons_self

/-- No two frames have the same node. -/
theorem node_ne (h : Nested g s (⟨x, rest⟩ :: fs)) {f : Frame α} (hf : f ∈ fs) : f.node ≠ x := by
  obtain ⟨above, below, hst, _, _, hb⟩ := h.layers
  have hnd := h.stack_nodup
  rw [hst, List.nodup_append, List.nodup_cons] at hnd
  rintro rfl
  exact hnd.2.1.1 (hb.node_mem (f := f) hf)

/-- What is left to look at are successors. -/
theorem mem_succ (h : Nested g s (⟨x, y :: rest⟩ :: fs)) : y ∈ g.succ x := by
  obtain ⟨_, _, _, hf, _⟩ := h.layers
  obtain ⟨seen, hsucc, _⟩ := hf.looked
  rw [hsucc]
  exact List.mem_append_right _ List.mem_cons_self

/-- Looking at a node that has been reached before. -/
theorem look_of_visited (h : Nested g s (⟨x, y :: rest⟩ :: fs)) (hy : s.visited y = true) :
    Nested g ((s.noteEdge x y).lowerToIndex x y) (⟨x, rest⟩ :: fs) := by
  have hn := h.noteEdge x y
  have hyn : (s.noteEdge x y).visited y = true := by
    rw [SearchState.noteEdge_eq]
    exact hy
  rw [SearchState.lowerToIndex_eq hyn]
  split
  · next hm =>
    have hl := hn.lower ((hn.onStack_iff y).mp hm) (Relation.ReflTransGen.single h.mem_succ)
    obtain ⟨above, below, hst, hf, he, hb⟩ := hl.layers
    refine { hl with layers := ⟨above, below, hst, hf.advance ⟨?_, ?_⟩, he, hb⟩ }
    · rw [SearchState.visited_lower]
      exact hyn
    · intro _
      rw [SearchState.lowlink_lower, if_pos rfl, SearchState.index_lower]
      exact Nat.min_le_right _ _
  · next hm =>
    obtain ⟨above, below, hst, hf, he, hb⟩ := hn.layers
    refine { hn with layers := ⟨above, below, hst, hf.advance ⟨hyn, ?_⟩, he, hb⟩ }
    intro hyb
    have hys : y ∈ (s.noteEdge x y).stack := by
      rw [hst]
      exact List.mem_append_right _ (List.mem_cons_of_mem _ hyb)
    exact absurd ((hn.onStack_iff y).mpr hys) hm

/-- Looking at a new node. -/
theorem look_of_not_visited (h : Nested g s (⟨x, y :: rest⟩ :: fs)) (hy : s.visited y = false) :
    Nested g ((s.noteEdge x y).enter y) (⟨y, g.succ y⟩ :: ⟨x, rest⟩ :: fs) := by
  have hsucc := h.mem_succ
  have hyn : (s.noteEdge x y).visited y = false := by
    rw [SearchState.noteEdge_eq]
    exact hy
  have hl := (h.noteEdge x y).enter hyn (by
    intro p hp
    cases hp
    exact hsucc)
  obtain ⟨above, below, hst, hf, he, above', below', hst', hf', he', hb⟩ := hl.layers
  refine { hl with layers := ⟨above, below, hst, hf, ?_, above', below', hst', ?_, he', hb⟩ }
  · intro p hp
    cases hp
    exact hsucc
  · apply hf'.advance
    constructor
    · exact (SearchState.visited_enter _ _ _).mpr (Or.inl rfl)
    · intro hyb
      have hnd := hl.stack_nodup
      rw [hst, List.nodup_append, List.nodup_cons] at hnd
      apply absurd _ hnd.2.1.1
      rw [hst']
      exact List.mem_append_right _ (List.mem_cons_of_mem _ hyb)

/-- Leaving a node that is no root: its layer joins the one below. -/
theorem merge {p : Frame α} (h : Nested g s (⟨x, []⟩ :: p :: fs))
    (hr : s.lowlink x < s.index x) (hp : s.lowlink p.node ≤ s.lowlink x) :
    Nested g s (p :: fs) := by
  obtain ⟨above, below, hst, hf, he, above', below', rfl, hf', he', hb⟩ := h.layers
  obtain ⟨seen, hsucc, hseen⟩ := hf.looked
  rw [List.append_nil] at hsucc
  have hpx : g.Edge p.node x := he p rfl
  have join {y : α} (hl : Looked s x (above' ++ p.node :: below') y) :
      Looked s p.node below' y := by
    refine ⟨hl.visited, fun hy => hp.trans (hl.low ?_)⟩
    exact List.mem_append_right _ (List.mem_cons_of_mem _ hy)
  have hlayer : Layer g s p (above ++ x :: above') below' := by
    constructor
    · exact hf'.looked
    · intro v hv
      rcases List.mem_append.mp hv with hv | hv
      · exact fun y hy => join (hf.finished v hv y hy)
      · rcases List.mem_cons.mp hv with rfl | hv
        · exact fun y hy => join (hseen y (hsucc ▸ hy))
        · exact hf'.finished v hv
    · intro v hv
      rcases List.mem_append.mp hv with hv | hv
      · exact (hf.reached v hv).head hpx
      · rcases List.mem_cons.mp hv with rfl | hv
        · exact Relation.ReflTransGen.single hpx
        · exact hf'.reached v hv
    · intro v hv
      rcases List.mem_append.mp hv with hv | hv
      · exact hf.notRoot v hv
      · rcases List.mem_cons.mp hv with rfl | hv
        · exact hr
        · exact hf'.notRoot v hv
  refine { h with layers := ⟨above ++ x :: above', below', ?_, hlayer, he', hb⟩ }
  rw [hst, List.append_assoc]
  rfl

/-- The node of the bottommost frame is a root once its successors have been looked at. -/
theorem isRoot_of_bottom (h : Nested g s [⟨x, []⟩]) : s.isRoot x = true := by
  rw [SearchState.isRoot_iff (h.visited x h.node_mem)]
  obtain ⟨above, below, hst, _, _, rfl⟩ := h.layers
  obtain ⟨w, hw, hwi, _⟩ := h.leadsBack x h.node_mem
  have hle := h.lowlink_le x h.node_mem
  have hsorted := h.sorted
  rw [hst, List.pairwise_append] at hsorted
  rw [hst, List.mem_append, List.mem_singleton] at hw
  rcases hw with hw | rfl
  · have := hsorted.2.2 w hw x List.mem_cons_self
    omega
  · exact hwi.symm

end Nested

/-- A component that a search is about to take off the stack. -/
structure Completed (g : Digraph α) (s : SearchState α) (c : List α) : Prop where
  ne_nil : c ≠ []
  /-- The members are in the order in which they were reached. -/
  sorted : c.Pairwise fun x y => s.index x < s.index y
  mem_stack : ∀ x ∈ c, x ∈ s.stack
  connected : ∀ x ∈ c, ∀ y ∈ c, g.Reaches x y
  closed : ∀ x ∈ c, ∀ y ∈ g.succ x, y ∈ c ∨ (s.visited y = true ∧ y ∉ s.stack)

/-- All edges out of a layer have been looked at when nothing is left of its frame. -/
theorem Layer.looked_of_mem {g : Digraph α} {s : SearchState α} {x v y : α} {above below : List α}
    (h : Layer g s ⟨x, []⟩ above below) (hv : v ∈ x :: above) (hy : y ∈ g.succ v) :
    Looked s x below y := by
  rcases List.mem_cons.mp hv with rfl | hv
  · obtain ⟨seen, hsucc, hseen⟩ := h.looked
    rw [List.append_nil] at hsucc
    exact hseen y (hsucc ▸ hy)
  · exact h.finished v hv y hy

namespace Nested

variable {g : Digraph α} {s : SearchState α} {x v w y : α} {fs : List (Frame α)}
  {above below : List α}

/-- An edge out of the layer of a root leads to the layer or to what has been completed. -/
theorem closed_layer (h : Nested g s (⟨x, []⟩ :: fs)) (hr : s.lowlink x = s.index x)
    (hst : s.stack = above ++ x :: below) (hf : Layer g s ⟨x, []⟩ above below)
    (hv : v ∈ x :: above) (hy : y ∈ g.succ v) :
    y ∈ x :: above ∨ (s.visited y = true ∧ y ∉ s.stack) := by
  have hl := hf.looked_of_mem hv hy
  by_cases hys : y ∈ s.stack
  · rw [hst, List.mem_append] at hys
    rcases hys with hys | hys
    · exact Or.inl (List.mem_cons_of_mem _ hys)
    · rcases List.mem_cons.mp hys with rfl | hyb
      · exact Or.inl List.mem_cons_self
      · -- The lowlink of the root would be below its index.
        have hsorted := h.sorted
        rw [hst, List.pairwise_append, List.pairwise_cons] at hsorted
        have hlow := hl.low hyb
        have hlt := hsorted.2.1.1 y hyb
        omega
  · exact Or.inr ⟨hl.visited, hys⟩

/-- What is within reach of the layer of a root and on the stack is in the layer. -/
theorem mem_layer_of_reaches (h : Nested g s (⟨x, []⟩ :: fs)) (hr : s.lowlink x = s.index x)
    (hst : s.stack = above ++ x :: below) (hf : Layer g s ⟨x, []⟩ above below)
    (hv : v ∈ x :: above) (hvw : g.Reaches v w) (hw : w ∈ s.stack) : w ∈ x :: above := by
  have hk := hvw.keeps (p := fun y => y ∈ x :: above ∨ (s.visited y = true ∧ y ∉ s.stack)) (by
    rintro y (hy | ⟨hyv, hys⟩) z hz
    · exact h.closed_layer hr hst hf hy hz
    · exact Or.inr (h.closed y hyv hys z hz)) (Or.inl hv)
  exact hk.resolve_right fun hn => hn.2 hw

/-- Every node of the layer of a root leads back to the root: it leads back to a node with a lower
index, as long as it is not the root itself. -/
theorem reaches_root (h : Nested g s (⟨x, []⟩ :: fs)) (hr : s.lowlink x = s.index x)
    (hst : s.stack = above ++ x :: below) (hf : Layer g s ⟨x, []⟩ above below)
    (hv : v ∈ x :: above) : g.Reaches v x := by
  induction hn : s.index v using Nat.strongRecOn generalizing v with
  | ind n ih =>
    rcases List.mem_cons.mp hv with rfl | hva
    · exact Relation.ReflTransGen.refl
    · have hvs : v ∈ s.stack := by
        rw [hst]
        exact List.mem_append_left _ hva
      obtain ⟨w, hw, hwi, hvw⟩ := h.leadsBack v hvs
      have hlt := hf.notRoot v hva
      have hwl := h.mem_layer_of_reaches hr hst hf hv hvw hw
      exact hvw.trans (ih (s.index w) (by omega) hwl rfl)

/-- The layer of a root is a component. -/
theorem completed (h : Nested g s (⟨x, []⟩ :: fs)) (hr : s.lowlink x = s.index x)
    (hst : s.stack = above ++ x :: below) (hf : Layer g s ⟨x, []⟩ above below) :
    Completed g s (x :: above.reverse) := by
  have hmem {v : α} : v ∈ x :: above.reverse ↔ v ∈ x :: above := by
    rw [List.mem_cons, List.mem_cons, List.mem_reverse]
  have hfrom : ∀ v ∈ x :: above, g.Reaches x v := by
    intro v hv
    rcases List.mem_cons.mp hv with rfl | hv
    · exact Relation.ReflTransGen.refl
    · exact hf.reached v hv
  constructor
  · exact List.cons_ne_nil _ _
  · have hsorted := h.sorted
    rw [hst, List.pairwise_append] at hsorted
    rw [List.pairwise_cons, List.pairwise_reverse]
    refine ⟨?_, hsorted.1⟩
    intro v hv
    exact hsorted.2.2 v (List.mem_reverse.mp hv) x List.mem_cons_self
  · intro v hv
    rw [hst, List.mem_append]
    rcases List.mem_cons.mp (hmem.mp hv) with rfl | hv
    · exact Or.inr List.mem_cons_self
    · exact Or.inl hv
  · exact fun v hv w hw => (h.reaches_root hr hst hf (hmem.mp hv)).trans (hfrom w (hmem.mp hw))
  · intro v hv y hy
    rw [hmem]
    exact h.closed_layer hr hst hf (hmem.mp hv) hy

/-- Below a node are the nodes of the stack that are neither the node nor above it. -/
theorem mem_below_iff {frames : List (Frame α)} (h : Nested g s frames)
    (hst : s.stack = above ++ x :: below) :
    y ∈ below ↔ y ∈ s.stack ∧ y ∉ x :: above.reverse := by
  have hnd := h.stack_nodup
  rw [hst, List.nodup_append, List.nodup_cons] at hnd
  rw [hst, List.mem_append, List.mem_cons, List.mem_cons, List.mem_reverse]
  constructor
  · intro hy
    refine ⟨Or.inr (Or.inr hy), ?_⟩
    rintro (rfl | hya)
    · exact hnd.2.1.1 hy
    · exact hnd.2.2 y hya y (List.mem_cons_of_mem _ hy) rfl
  · rintro ⟨hya | rfl | hy, hn⟩
    · exact absurd (Or.inr hya) hn
    · exact absurd (Or.inl rfl) hn
    · exact hy

/-- Leaving a root takes its component off the stack. -/
theorem pop (h : Nested g s (⟨x, []⟩ :: fs)) (hr : s.lowlink x = s.index x) :
    ∃ c t, s.pop x = (some c, t) ∧ Completed g s c ∧ Nested g t fs ∧
      ∀ y, y ∈ t.stack ↔ y ∈ s.stack ∧ y ∉ c := by
  obtain ⟨above, below, hst, hf, _, hb⟩ := h.layers
  have hc := h.completed hr hst hf
  have hnd := h.stack_nodup
  have hsorted := h.sorted
  rw [hst, List.nodup_append, List.nodup_cons] at hnd
  rw [hst, List.pairwise_append, List.pairwise_cons] at hsorted
  have hmem (y : α) : y ∈ x :: above.reverse ↔ y = x ∨ y ∈ above := by
    rw [List.mem_cons, List.mem_reverse]
  have hbelow (y : α) := h.mem_below_iff hst (y := y)
  have hx : x ∉ above := fun hm => hnd.2.2 x hm x List.mem_cons_self rfl
  refine ⟨_, _, SearchState.pop_eq hst hx, hc, ?_, hbelow⟩
  constructor
  case layers =>
    apply hb.mono
    · exact fun _ hy => hy
    · exact fun _ _ => ⟨rfl, Nat.le_refl _⟩
  case sorted => exact hsorted.2.1.2
  case onStack_iff =>
    intro y
    show y ∈ s.onStack.filter _ ↔ y ∈ below
    rw [List.mem_filter, h.onStack_iff, decide_eq_true_eq, hbelow, hmem]
    tauto
  case visited => exact fun y hy => h.visited y ((hbelow y).mp hy).1
  case index_lt_counter => exact fun y hy => h.index_lt_counter y ((hbelow y).mp hy).1
  case lowlink_le => exact fun y hy => h.lowlink_le y ((hbelow y).mp hy).1
  case leadsBack =>
    intro v hv
    obtain ⟨hvs, -⟩ := (hbelow v).mp hv
    obtain ⟨w, hw, hwi, hr⟩ := h.leadsBack v hvs
    refine ⟨w, (hbelow w).mpr ⟨hw, ?_⟩, hwi, hr⟩
    intro hwc
    have hlt : s.index v < s.index w := by
      rcases (hmem w).mp hwc with rfl | hwa
      · exact hsorted.2.1.1 v hv
      · exact hsorted.2.2 w hwa v (List.mem_cons_of_mem _ hv)
    have hle := h.lowlink_le v hvs
    omega
  case closed =>
    intro y hy hn z hz
    by_cases hys : y ∈ s.stack
    · have hyc : y ∈ x :: above.reverse := by
        by_contra hyc
        exact hn ((hbelow y).mpr ⟨hys, hyc⟩)
      rcases hc.closed y hyc z hz with hzc | ⟨hzv, hzs⟩
      · exact ⟨h.visited z (hc.mem_stack z hzc), fun hzb => ((hbelow z).mp hzb).2 hzc⟩
      · exact ⟨hzv, fun hzb => hzs ((hbelow z).mp hzb).1⟩
    · obtain ⟨hzv, hzs⟩ := h.closed y hy hys z hz
      exact ⟨hzv, fun hzb => hzs ((hbelow z).mp hzb).1⟩

end Nested

/-! ## One step -/

namespace Search

variable {g : Digraph α} {s : Search α} {x : α}

theorem passDown_of_nil (h : s.frames = []) : s.passDown x = s := by
  rw [passDown, h]

theorem passDown_of_cons {p : Frame α} {fs : List (Frame α)} (h : s.frames = p :: fs) :
    s.passDown x = { s with state := s.state.lowerToLowlink p.node x } := by
  rw [passDown, h]

/-- Handing a lowlink on changes nothing or lowers a node. -/
theorem passDown_cases (s : Search α) (x : α) : s.passDown x = s ∨
    ∃ p bound, s.passDown x = { s with state := s.state.lower p bound } := by
  unfold passDown
  split
  · exact Or.inl rfl
  · next p fs hf =>
    rcases s.state.lowerToLowlink_cases p.node x with he | ⟨bound, he⟩
    · exact Or.inl (by rw [he])
    · exact Or.inr ⟨p.node, bound, by rw [he]⟩

/-- It changes lowlinks only. -/
theorem passDown_eq (s : Search α) (x : α) : s.passDown x =
    { s with state := { s.state with marks := (s.passDown x).state.marks } } := by
  rcases s.passDown_cases x with he | ⟨p, bound, he⟩
  · rw [he]
  · rw [he]
    rfl

theorem trace_passDown (s : Search α) (x : α) : (s.passDown x).trace = s.trace := by
  rw [passDown_eq]

theorem stack_passDown (s : Search α) (x : α) : (s.passDown x).state.stack = s.state.stack := by
  rw [passDown_eq]

theorem keys_passDown (s : Search α) (x : α) :
    (s.passDown x).state.marks.keys = s.state.marks.keys := by
  rcases s.passDown_cases x with he | ⟨p, bound, he⟩
  · rw [he]
  · rw [he]
    exact SearchState.keys_lower _ _ _

end Search

namespace Nested

variable {g : Digraph α} {s : Search α} {x : α}

/-- The lowlink of a finished node is handed on to the node it was reached from. -/
theorem passDown (h : Nested g s.state (⟨x, []⟩ :: s.frames)) :
    Nested g (s.passDown x).state (⟨x, []⟩ :: s.frames) ∧
      ∀ p ∈ s.frames.head?,
        (s.passDown x).state.lowlink p.node ≤ (s.passDown x).state.lowlink x := by
  match hf : s.frames with
  | [] =>
    rw [hf] at h
    rw [Search.passDown_of_nil hf]
    refine ⟨h, fun p hp => ?_⟩
    cases hp
  | p :: fs =>
    rw [hf] at h
    -- The lowlink of `x` is the index of a node on the stack.
    obtain ⟨w, hw, hwi, hr⟩ := h.leadsBack x h.node_mem
    obtain ⟨_, _, _, _, hp, _⟩ := h.layers
    rw [Search.passDown_of_cons hf, SearchState.lowerToLowlink_eq (h.visited x h.node_mem), ← hwi]
    refine ⟨h.lower hw (hr.head (hp p rfl)), fun p' hp' => ?_⟩
    cases hp'
    rw [SearchState.lowlink_lower, SearchState.lowlink_lower, if_pos rfl, hwi]
    split
    · exact Nat.le_refl _
    · exact Nat.min_le_right _ _

/-- Leaving a node completes a component or lets the layer of the node join the one below. -/
theorem leave (h : Nested g s.state (⟨x, []⟩ :: s.frames)) :
    Nested g (s.leave x).state s.frames ∧
      (s.leave x = s.passDown x ∨
        ∃ c t, s.leave x = { s with state := t, trace := ⟨.emitted c, t⟩ :: s.trace } ∧
          Completed g (s.passDown x).state c ∧ t.marks = (s.passDown x).state.marks ∧
          t.loops = (s.passDown x).state.loops ∧
          ∀ y, y ∈ t.stack ↔ y ∈ (s.passDown x).state.stack ∧ y ∉ c) := by
  obtain ⟨hu, hlow⟩ := h.passDown
  have hroot := SearchState.isRoot_iff (hu.visited x hu.node_mem)
  unfold Search.leave
  dsimp only
  split
  · next hr =>
    obtain ⟨c, t, hp, hc, hn, hst⟩ := hu.pop (hroot.mp hr)
    obtain ⟨hm, hl, -⟩ := SearchState.unchanged_pop hp
    have hcomplete : (s.passDown x).complete x =
        { s with state := t, trace := ⟨.emitted c, t⟩ :: s.trace } := by
      rw [Search.complete, hp, Search.passDown_eq]
    rw [hcomplete]
    exact ⟨hn, Or.inr ⟨c, t, rfl, hc, hm, hl, hst⟩⟩
  · next hr =>
    refine ⟨?_, Or.inl rfl⟩
    cases hf : s.frames with
    | nil =>
      rw [hf] at hu
      exact absurd hu.isRoot_of_bottom hr
    | cons p fs =>
      rw [hf] at hu hlow
      rw [hroot] at hr
      exact hu.merge (lt_of_le_of_ne (hu.lowlink_le x hu.node_mem) hr) (hlow p rfl)

/-- One step keeps what holds of the stack. -/
theorem step (h : Nested g s.state s.frames) : Nested g (s.step g).state (s.step g).frames := by
  match hf : s.frames with
  | [] =>
    rw [Search.step_of_ended g hf]
    exact h
  | ⟨x, []⟩ :: below =>
    rw [hf] at h
    rw [Search.step_of_finished g hf, Search.frames_leave]
    exact (leave (s := { s with frames := below }) h).1
  | ⟨x, y :: rest⟩ :: below =>
    rw [hf] at h
    cases hy : s.state.visited y with
    | true =>
      rw [Search.step_of_visited g hf hy]
      exact h.look_of_visited hy
    | false =>
      rw [Search.step_of_not_visited g hf hy]
      exact h.look_of_not_visited hy

end Nested

end TypeAlias
