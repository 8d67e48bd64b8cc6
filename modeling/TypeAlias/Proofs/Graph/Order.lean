import Mathlib.Data.List.TakeWhile
import TypeAlias.Proofs.Graph.Components

/-!
# Correctness of the order

There is an order of all that is within reach exactly when no node there leads back to itself. What
stands in the way otherwise is the first component with a cycle, and the nodes handed out before are
those of the components in front of it.
-/

namespace TypeAlias

variable {α : Type}

namespace Digraph

/-- No node within reach leads back to itself. -/
def Acyclic (g : Digraph α) (starts : List α) : Prop :=
  ∀ x ∈ g.reachable starts, ¬ g.LeadsTo x x

/-- An order of the nodes within reach, each strictly after its successors. -/
structure IsOrder [DecidableEq α] (g : Digraph α) (starts : List α) (nodes : List α) : Prop where
  nodup : nodes.Nodup
  mem_iff : ∀ x, x ∈ nodes ↔ x ∈ g.reachable starts
  before : ∀ x ∈ nodes, ∀ y ∈ g.succ x, nodes.idxOf y < nodes.idxOf x

namespace Decomposition

variable {g : Digraph α} {starts : List α} {cs : List (List α)}

theorem mem_reachable (h : g.Decomposition starts cs) {c : List α} (hc : c ∈ cs) {x : α}
    (hx : x ∈ c) : x ∈ g.reachable starts :=
  (h.mem_iff x).mp (List.mem_flatten.mpr ⟨c, hc, hx⟩)

/-- A node is in one component only. -/
theorem eq_of_mem (h : g.Decomposition starts cs) {c c' : List α} (hc : c ∈ cs) (hc' : c' ∈ cs)
    {x : α} (hx : x ∈ c) (hx' : x ∈ c') : c = c' := by
  obtain ⟨i, hi, rfl⟩ := List.getElem_of_mem hc
  obtain ⟨j, hj, rfl⟩ := List.getElem_of_mem hc'
  have hij := h.position_unique hi hj hx hx'
  subst hij
  rfl

/-- The members of a component are the nodes connected with one of them. -/
theorem mem_iff_connected (h : g.Decomposition starts cs) {c : List α} (hc : c ∈ cs) {x y : α}
    (hx : x ∈ c) : y ∈ c ↔ g.Connected x y := by
  constructor
  · exact fun hy => ⟨h.connected c hc x hx y hy, h.connected c hc y hy x hx⟩
  · intro hxy
    obtain ⟨s, hs, hsx⟩ := h.mem_reachable hc hx
    obtain ⟨c', hc', hxc', hyc'⟩ := (h.same_iff_connected ⟨s, hs, hsx⟩
      ⟨s, hs, hsx.trans hxy.1⟩).mpr hxy
    rw [h.eq_of_mem hc hc' hx hxc']
    exact hyc'

/-- The members of a component with a cycle are what one of them leads to and back from. -/
theorem mem_iff_mutual (h : g.Decomposition starts cs) {c : List α} (hc : c ∈ cs)
    (hcycle : g.HoldsCycle c) {x y : α} (hx : x ∈ c) :
    y ∈ c ↔ g.LeadsTo x y ∧ g.LeadsTo y x := by
  have hn : c.Nodup := (List.nodup_flatten.mp h.nodup).1 c hc
  constructor
  · intro hy
    exact ⟨leadsTo_of_holdsCycle hn (h.connected c hc) hcycle hx hy,
      leadsTo_of_holdsCycle hn (h.connected c hc) hcycle hy hx⟩
  · rintro ⟨hxy, hyx⟩
    exact (h.mem_iff_connected hc hx).mpr ⟨hxy.to_reflTransGen, hyx.to_reflTransGen⟩

/-- A node leads back to itself when its component holds a cycle. -/
theorem leadsTo_self_iff_holdsCycle (h : g.Decomposition starts cs) {c : List α} (hc : c ∈ cs)
    {x : α} (hx : x ∈ c) : g.LeadsTo x x ↔ g.HoldsCycle c := by
  constructor
  · intro hxx
    obtain ⟨z, hxz, hzx⟩ := Relation.TransGen.head'_iff.mp hxx
    have hz : z ∈ c :=
      (h.mem_iff_connected hc hx).mpr ⟨Relation.ReflTransGen.single hxz, hzx⟩
    exact holdsCycle_of_edge hx hz hxz
  · exact fun hcycle => ((h.mem_iff_mutual hc hcycle hx).mp hx).1

/-- Some node leads back to itself when some component holds a cycle. -/
theorem leadsTo_self_iff (h : g.Decomposition starts cs) :
    (∃ x ∈ g.reachable starts, g.LeadsTo x x) ↔ ∃ c ∈ cs, g.HoldsCycle c := by
  constructor
  · rintro ⟨x, hx, hxx⟩
    obtain ⟨c, hc, hxc⟩ := List.mem_flatten.mp ((h.mem_iff x).mpr hx)
    exact ⟨c, hc, (h.leadsTo_self_iff_holdsCycle hc hxc).mp hxx⟩
  · rintro ⟨c, hc, hcycle⟩
    obtain ⟨x, hx⟩ := List.exists_mem_of_ne_nil c (h.ne_nil c hc)
    exact ⟨x, h.mem_reachable hc hx, (h.leadsTo_self_iff_holdsCycle hc hx).mpr hcycle⟩

/-- The single members of components without cycles. -/
theorem eq_map_singleton {before : List (List α)} (hn : ∀ c ∈ before, c ≠ [])
    (hb : ∀ c ∈ before, ¬ g.HoldsCycle c) :
    before = (before.filterMap List.head?).map fun x => [x] := by
  induction before with
  | nil => rfl
  | cons c before ih =>
    obtain ⟨x, rfl, -⟩ := (not_holdsCycle_iff (hn c List.mem_cons_self)).mp
      (hb c List.mem_cons_self)
    rw [List.filterMap_cons_some (by rfl), List.map_cons,
      ← ih (fun c hc => hn c (List.mem_cons_of_mem _ hc))
        fun c hc => hb c (List.mem_cons_of_mem _ hc)]

/-- Components without cycles are an order. -/
theorem isOrder [DecidableEq α] {nodes : List α} (h : g.Decomposition starts (nodes.map fun x => [x]))
    (hb : ∀ x ∈ nodes, x ∉ g.succ x) : g.IsOrder starts nodes := by
  have hflat : (nodes.map fun x => [x]).flatten = nodes := by
    rw [← List.flatMap_def, List.flatMap_singleton']
  have hn : nodes.Nodup := by
    have := h.nodup
    rwa [hflat] at this
  have hm (x : α) : x ∈ nodes ↔ x ∈ g.reachable starts := by
    have := h.mem_iff x
    rwa [hflat] at this
  have hpos {x : α} (hx : x ∈ nodes) : ∃ hi : nodes.idxOf x < (nodes.map fun x => [x]).length,
      x ∈ (nodes.map fun x => [x])[nodes.idxOf x] := by
    have hi := List.idxOf_lt_length_of_mem hx
    refine ⟨by rwa [List.length_map], ?_⟩
    rw [List.getElem_map, List.getElem_idxOf hi]
    exact List.mem_singleton_self x
  refine ⟨hn, hm, ?_⟩
  intro x hx y hy
  have hyn : y ∈ nodes := (hm y).mpr (mem_reachable_of_mem_succ ((hm x).mp hx) hy)
  obtain ⟨hi, hxi⟩ := hpos hx
  obtain ⟨hj, hyj⟩ := hpos hyn
  have hle := h.position_le_of_edge hy hi hj hxi hyj
  apply lt_of_le_of_ne hle
  intro he
  have hyx : y = x := List.idxOf_inj hyn |>.mp he
  exact hb x hx (hyx ▸ hy)

end Decomposition

namespace IsOrder

variable [DecidableEq α] {g : Digraph α} {starts nodes : List α}

theorem idxOf_le_of_reaches (h : g.IsOrder starts nodes) {x y : α} (hr : g.Reaches x y)
    (hx : x ∈ nodes) : nodes.idxOf y ≤ nodes.idxOf x := by
  induction hr with
  | refl => exact Nat.le_refl _
  | tail hxz he ih =>
    obtain ⟨s, hs, hsx⟩ := (h.mem_iff x).mp hx
    have hz : _ ∈ nodes := (h.mem_iff _).mpr ⟨s, hs, hsx.trans hxz⟩
    exact (h.before _ hz _ he).le.trans ih

/-- The only start node comes last. -/
theorem getLast?_eq {start : α} (h : g.IsOrder [start] nodes) :
    nodes.getLast? = some start := by
  have hs : start ∈ nodes := (h.mem_iff start).mpr (mem_reachable_of_mem List.mem_cons_self)
  have hlast : nodes.length - 1 < nodes.length := by
    have := List.length_pos_of_mem hs
    omega
  obtain ⟨x, hx, hr⟩ := (h.mem_iff _).mp (List.getElem_mem hlast)
  rw [List.mem_singleton.mp hx] at hr
  have hle := h.idxOf_le_of_reaches hr hs
  rw [h.nodup.idxOf_getElem] at hle
  have hlt := List.idxOf_lt_length_of_mem hs
  have he : nodes.length - 1 = nodes.idxOf start := by omega
  rw [List.getLast?_eq_getElem?, he, List.getElem?_idxOf hs]

end IsOrder

end Digraph

variable [DecidableEq α]

/-- What is delivered of a trace whose moments tell the cycles right. -/
theorem Trace.deliver_eq {g : Digraph α} {t : Trace α}
    (h : ∀ m ∈ t, ∀ c, m.emitted? = some c →
      (m.state.isCyclic? c = some true ↔ g.HoldsCycle c)) :
    t.deliver =
      ((t.components.takeWhile fun c => !decide (g.HoldsCycle c)).filterMap List.head?,
        t.components.find? fun c => decide (g.HoldsCycle c)) := by
  induction t with
  | nil => rfl
  | cons m t ih =>
    have ht := ih fun m' hm' => h m' (List.mem_cons_of_mem _ hm')
    rw [deliver, ht]
    cases he : m.emitted? with
    | none =>
      have hc : components (m :: t) = components t := List.filterMap_cons_none he
      simp [Moment.cycle?, he, hc]
    | some c =>
      have hc : components (m :: t) = c :: components t := List.filterMap_cons_some he
      have hiff := h m List.mem_cons_self c he
      rw [hc]
      by_cases hcycle : g.HoldsCycle c
      · have hm : m.cycle? = some c := by
          rw [Moment.cycle?, he, Option.filter_some, if_pos]
          simpa using hiff.mpr hcycle
        simp [hm, hcycle]
      · have hm : m.cycle? = none := by
          rw [Moment.cycle?, he, Option.filter_some, if_neg]
          simpa using fun e => hcycle (hiff.mp e)
        cases c <;> simp [hm, hcycle, List.filterMap_cons]

namespace Digraph

variable {g : Digraph α} {starts : List α} {t : Trace α}

theorem deliver_trace? (h : g.trace? starts = some t) :
    t.deliver =
      ((t.components.takeWhile fun c => !decide (g.HoldsCycle c)).filterMap List.head?,
        t.components.find? fun c => decide (g.HoldsCycle c)) := by
  apply Trace.deliver_eq
  intro m hm c hc
  obtain ⟨pre, post, hsplit⟩ := List.append_of_mem hm
  obtain ⟨e, s⟩ := m
  cases e with
  | reached x => cases hc
  | emitted c' =>
    cases hc
    exact (emission_trace? h hsplit).isCyclic?_iff

/-- The law of an order: what it is when there is one, and what stands in the way when not. Here `cs`
are the components and `delivered` is what has been handed out. -/
def OrderLaw (g : Digraph α) (starts : List α) (cs : List (List α)) (delivered : List α) :
    Except (CyclicDependency α) (List α) → Prop
  | .ok nodes => g.Acyclic starts ∧ g.IsOrder starts nodes ∧ delivered = nodes
  | .error e => ¬ g.Acyclic starts ∧
      cs.find? (fun c => decide (g.HoldsCycle c)) = some e.members ∧
      cs.takeWhile (fun c => !decide (g.HoldsCycle c)) = delivered.map fun x => [x]

theorem orderLaw_trace? (h : g.trace? starts = some t) :
    g.OrderLaw starts t.components t.acyclicNodes t.order := by
  have hd := decomposition_trace? h
  have hfirst : t.firstCycle? = t.components.find? fun c => decide (g.HoldsCycle c) :=
    congrArg Prod.snd (deliver_trace? h)
  have hnodes : t.acyclicNodes = (t.components.takeWhile
      fun c => !decide (g.HoldsCycle c)).filterMap List.head? :=
    congrArg Prod.fst (deliver_trace? h)
  have hsingle : t.components.takeWhile (fun c => !decide (g.HoldsCycle c)) =
      t.acyclicNodes.map fun x => [x] := by
    rw [hnodes]
    apply Decomposition.eq_map_singleton (g := g)
    · exact fun c hc => hd.ne_nil c ((List.takeWhile_sublist _).mem hc)
    · intro c hc
      simpa using List.mem_takeWhile_imp hc
  have hcyclic : (¬ g.Acyclic starts) ↔ ∃ c ∈ t.components, g.HoldsCycle c := by
    rw [← hd.leadsTo_self_iff, Acyclic]
    push Not
    rfl
  cases hc : t.firstCycle? with
  | some c =>
    rw [Trace.order, hc]
    rw [hfirst] at hc
    refine ⟨hcyclic.mpr ⟨c, List.mem_of_find?_eq_some hc, ?_⟩, hc, hsingle⟩
    simpa using List.find?_some hc
  | none =>
    rw [Trace.order, hc]
    rw [hfirst, List.find?_eq_none] at hc
    have hall : ∀ c ∈ t.components, ¬ g.HoldsCycle c := by simpa using hc
    have hcs : t.components = t.acyclicNodes.map fun x => [x] := by
      rw [← hsingle, eq_comm, List.takeWhile_eq_self_iff]
      simpa using hall
    refine ⟨?_, ?_, rfl⟩
    · rw [← not_not (a := g.Acyclic starts), hcyclic]
      push Not
      exact hall
    · apply Decomposition.isOrder
      · rw [← hcs]
        exact hd
      · intro x hx hxx
        apply hall [x]
        · rw [hcs]
          exact List.mem_map_of_mem hx
        · exact Or.inr ⟨x, List.mem_singleton_self x, hxx⟩

/-- The order of all that is within reach of some nodes obeys its law. So does the order of what is
within reach of one node, which comes last. -/
theorem order?_law (g : Digraph α) :
    (∀ starts, (g.reachable starts).Finite → ∃ cs delivered r,
      g.components? starts = some cs ∧ g.delivered? starts = some delivered ∧
      g.order? starts = some r ∧ g.OrderLaw starts cs delivered r) ∧
    ∀ start, (g.reachable [start]).Finite → ∃ cs delivered r,
      g.componentsFrom? start = some cs ∧ g.delivered? [start] = some delivered ∧
      g.orderFrom? start = some r ∧ g.OrderLaw [start] cs delivered r ∧
      ∀ nodes, r = .ok nodes → nodes.getLast? = some start := by
  have found (starts : List α) (hf : (g.reachable starts).Finite) :
      ∃ t, g.trace? starts = some t := by
    obtain ⟨r, hr⟩ := exists_search?_of_finite hf {}
    exact ⟨_, congrArg (Option.map _) hr⟩
  constructor
  · intro starts hf
    obtain ⟨t, ht⟩ := found starts hf
    exact ⟨_, _, _, congrArg (Option.map _) ht, congrArg (Option.map _) ht,
      congrArg (Option.map _) ht, orderLaw_trace? ht⟩
  · intro start hf
    obtain ⟨t, ht⟩ := found [start] hf
    have hlaw := orderLaw_trace? ht
    refine ⟨_, _, _, congrArg (Option.map _) ht, congrArg (Option.map _) ht,
      congrArg (Option.map _) ht, hlaw, ?_⟩
    intro nodes hok
    rw [hok] at hlaw
    exact hlaw.2.1.getLast?_eq

theorem order?_law_twoCycles :
    ((twoCycles.reachable [7, 1]).Finite ∧ ∃ cs delivered r,
      twoCycles.components? [7, 1] = some cs ∧ twoCycles.delivered? [7, 1] = some delivered ∧
      twoCycles.order? [7, 1] = some r ∧ twoCycles.OrderLaw [7, 1] cs delivered r) ∧
    (twoCycles.reachable [4]).Finite ∧ ∃ cs delivered r,
      twoCycles.componentsFrom? 4 = some cs ∧ twoCycles.delivered? [4] = some delivered ∧
      twoCycles.orderFrom? 4 = some r ∧ twoCycles.OrderLaw [4] cs delivered r ∧
      ∀ nodes, r = .ok nodes → nodes.getLast? = some 4 :=
  ⟨⟨finite_reachable _ _, (order?_law twoCycles.toDigraph).1 _ (finite_reachable _ _)⟩,
    finite_reachable _ _, (order?_law twoCycles.toDigraph).2 _ (finite_reachable _ _)⟩

end Digraph

end TypeAlias
