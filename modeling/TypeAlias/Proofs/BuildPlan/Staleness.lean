import Mathlib.Data.List.Permutation
import TypeAlias.Proofs.BuildPlan.Additions

/-!
# What is out of date after a change

Whether a target is out of date is found out against the direction of the plan: from what has been
changed, the targets that use it are searched for, and what uses those. In the turned graph only
inputs have successors, and what has been changed need not be in it at all. What is reached are the
changed names and all that depends on one of them; the targets among it are rebuilt in build order.
-/

namespace TypeAlias

namespace BuildPlan

variable {as : List Addition} {p : BuildPlan} {t : Table String (List String)}
  {target input x y : String}

/-! ## The turned graph -/

/-- A target is noted for each of its inputs. -/
theorem mem_foldl_addDependent (inputs : List String) :
    x ∈ ((inputs.foldl (addDependent target) t).get? y).getD [] ↔
      x ∈ (t.get? y).getD [] ∨ x = target ∧ y ∈ inputs := by
  induction inputs generalizing t with
  | nil => simp
  | cons input inputs ih =>
    rw [List.foldl_cons, ih, addDependent, Table.get?_insert]
    by_cases hy : y = input
    · subst hy
      rw [if_pos rfl, Option.getD_some, List.mem_append, List.mem_singleton, or_assoc]
      simp only [List.mem_cons, true_or, and_true]
      exact or_congr_right (or_iff_left_of_imp And.left)
    · simp [hy]

theorem mem_foldl_entries (es : List (String × List String)) :
    x ∈ ((es.foldl (fun t e => e.2.foldl (addDependent e.1) t) t).get? y).getD [] ↔
      x ∈ (t.get? y).getD [] ∨ ∃ inputs, (x, inputs) ∈ es ∧ y ∈ inputs := by
  induction es generalizing t with
  | nil => simp
  | cons e es ih =>
    obtain ⟨target, inputs⟩ := e
    rw [List.foldl_cons, ih, mem_foldl_addDependent, or_assoc]
    apply or_congr_right
    constructor
    · rintro (⟨rfl, hy⟩ | ⟨inputs', he, hy⟩)
      · exact ⟨inputs, List.mem_cons_self, hy⟩
      · exact ⟨inputs', List.mem_cons_of_mem _ he, hy⟩
    · rintro ⟨inputs', he, hy⟩
      rcases List.mem_cons.mp he with he | he
      · cases he
        exact Or.inl ⟨rfl, hy⟩
      · exact Or.inr ⟨inputs', he, hy⟩

theorem mem_inputsOf_iff :
    y ∈ p.inputsOf x ↔ ∃ inputs, (x, inputs) ∈ p.inputs.entries ∧ y ∈ inputs := by
  simp only [← Table.get?_eq_some_iff, inputsOf]
  cases p.inputs.get? x <;> simp

/-- The edges of a plan are turned round. -/
theorem edge_dependents (p : BuildPlan) :
    (FiniteDigraph.ofTable p.dependents).Edge = Function.swap p.graph.Edge := by
  funext y x
  apply propext
  show x ∈ (p.dependents.get? y).getD [] ↔ y ∈ p.inputsOf x
  rw [dependents, mem_foldl_entries, mem_inputsOf_iff]
  exact or_iff_right List.not_mem_nil

/-- What is affected by a change is what a changed name is within reach of. -/
theorem mem_affected_iff {changed : List String} :
    x ∈ p.affected changed ↔ ∃ c ∈ changed, p.graph.Reaches x c := by
  have hreach (c : String) :
      x ∈ ((FiniteDigraph.ofTable p.dependents).componentsFrom c).flatten ↔
        p.graph.Reaches x c := by
    rw [FiniteDigraph.componentsFrom, FiniteDigraph.components,
      Digraph.mem_components_trace? (FiniteDigraph.trace?_eq _ _)]
    show (∃ s ∈ [c], (FiniteDigraph.ofTable p.dependents).Reaches s x) ↔ _
    simp only [List.mem_singleton, exists_eq_left]
    rw [Digraph.Reaches, edge_dependents, Relation.reflTransGen_swap]
  simp only [affected, List.mem_flatMap, List.mem_eraseDups, hreach]

/-! ## What is rebuilt -/

/-- A name is out of date after a change: it has an input, and it has been changed itself or depends
on something that has. -/
def Stale (as : List Addition) (changed : List String) (name : String) : Prop :=
  (∃ input, Uses as name input) ∧ (name ∈ changed ∨ ∃ c ∈ changed, DependsOn as name c)

theorem Merges.mem_affected_iff (h : Merges as p) {changed : List String} :
    x ∈ p.affected changed ↔ x ∈ changed ∨ ∃ c ∈ changed, DependsOn as x c := by
  rw [BuildPlan.mem_affected_iff]
  constructor
  · rintro ⟨c, hc, hr⟩
    rcases Relation.reflTransGen_iff_eq_or_transGen.mp hr with rfl | hr
    · exact Or.inl hc
    · exact Or.inr ⟨c, hc, h.leadsTo_iff.mp hr⟩
  · rintro (hx | ⟨c, hc, hd⟩)
    · exact ⟨x, hx, Relation.ReflTransGen.refl⟩
    · exact ⟨c, hc, (h.leadsTo_iff.mpr hd).to_reflTransGen⟩

/-- The test that picks out the targets to rebuild. -/
theorem Merges.stale_iff (h : Merges as p) {changed : List String} :
    (x ∈ p.affected changed && !(p.inputsOf x).isEmpty) = true ↔ Stale as changed x := by
  have hinputs : (!(p.inputsOf x).isEmpty) = true ↔ ∃ input, Uses as x input := by
    simp only [← h.mem_inputsOf]
    rw [Bool.not_eq_true', List.isEmpty_eq_false_iff_exists_mem]
  rw [Bool.and_eq_true, decide_eq_true_eq, hinputs, h.mem_affected_iff, and_comm, Stale]

theorem Merges.acyclic_iff (h : Merges as p) :
    p.graph.Acyclic p.inputs.keys ↔ ∀ name, ¬ DependsOn as name name := by
  constructor
  · intro hacyclic name hself
    have hname : name ∈ p.graph.reachable p.inputs.keys :=
      h.mem_reachable_iff.mpr (h.mem_keys_of_dependsOn hself)
    exact hacyclic name hname (h.leadsTo_iff.mpr hself)
  · exact fun hno name _ hself => hno name (h.leadsTo_iff.mp hself)

theorem Merges.exists_order (h : Merges as p) (hno : ∀ name, ¬ DependsOn as name name) :
    ∃ order, p.buildOrder = .ok order ∧ p.graph.IsOrder p.inputs.keys order := by
  have hlaw := p.orderLaw
  cases hb : p.buildOrder with
  | ok order =>
    rw [hb] at hlaw
    exact ⟨order, rfl, hlaw.2.1⟩
  | error e =>
    rw [hb] at hlaw
    exact absurd (h.acyclic_iff.mpr hno) hlaw.1

theorem Merges.exists_blocked (h : Merges as p) (hself : ∃ name, DependsOn as name name) :
    ∃ e, p.buildOrder = .error e := by
  have hlaw := p.orderLaw
  cases hb : p.buildOrder with
  | ok order =>
    rw [hb] at hlaw
    obtain ⟨name, hself⟩ := hself
    exact absurd hself (h.acyclic_iff.mp hlaw.1 name)
  | error e => exact ⟨e, rfl⟩

theorem staleTargets_of_ok {order : List String} (h : p.buildOrder = .ok order)
    (changed : List String) :
    p.staleTargets changed =
      .ok (order.filter fun name => name ∈ p.affected changed && !(p.inputsOf name).isEmpty) := by
  rw [staleTargets, h]
  rfl

theorem staleTargets_of_error {e : CyclicDependency String} (h : p.buildOrder = .error e)
    (changed : List String) : p.staleTargets changed = .error e := by
  rw [staleTargets, h]
  rfl

/-- In whatever order and however often the changed names are given, the same is rebuilt. -/
theorem staleTargets_congr {changed changed' : List String}
    (h : ∀ name, name ∈ changed ↔ name ∈ changed') :
    p.staleTargets changed = p.staleTargets changed' := by
  have haffected (name : String) : name ∈ p.affected changed ↔ name ∈ p.affected changed' := by
    simp only [mem_affected_iff, h]
  unfold staleTargets
  simp only [haffected]

/-- When no name of a plan depends on itself, the targets to rebuild after a change are, in build
order, just those names that are out of date. Otherwise the same loop stands in the way as when all
is built. -/
theorem staleTargets_ofAdditions (as : List Addition) (changed : List String) :
    ((∀ name, ¬ DependsOn as name name) → ∃ order stale,
      (ofAdditions as).buildOrder = .ok order ∧
      (ofAdditions as).staleTargets changed = .ok stale ∧
      order.Nodup ∧ stale.Sublist order ∧ ∀ name, name ∈ stale ↔ Stale as changed name) ∧
    ((∃ name, DependsOn as name name) → ∃ e, (ofAdditions as).buildOrder = .error e ∧
      (ofAdditions as).staleTargets changed = .error e) ∧
    ∀ changed', (∀ name, name ∈ changed ↔ name ∈ changed') →
      (ofAdditions as).staleTargets changed = (ofAdditions as).staleTargets changed' := by
  have h := Merges.ofAdditions as
  refine ⟨fun hno => ?_, fun hself => ?_, fun _ hsame => staleTargets_congr hsame⟩
  · obtain ⟨order, hb, horder⟩ := h.exists_order hno
    refine ⟨order, _, hb, staleTargets_of_ok hb changed, horder.nodup, List.filter_sublist, ?_⟩
    intro name
    rw [List.mem_filter, h.stale_iff]
    -- What is out of date has an input, so it has been mentioned.
    apply and_iff_right_of_imp
    rintro ⟨⟨input, huses⟩, -⟩
    rw [horder.mem_iff, h.mem_reachable_iff]
    exact h.mem_keys_of_dependsOn (Relation.TransGen.single huses)
  · obtain ⟨e, hb⟩ := h.exists_blocked hself
    exact ⟨e, hb, staleTargets_of_error hb changed⟩

/-- A header from which two objects are made, what is made of these, and a target besides. -/
def linked : List Addition :=
  [⟨"app", ["a.o", "b.o"]⟩, ⟨"a.o", ["a.h"]⟩, ⟨"docs", ["a.md"]⟩, ⟨"b.o", ["a.h", "b.c", "a.h"]⟩]

/-- The header is made as well, of what is made with it. -/
def looped : List Addition :=
  linked ++ [⟨"a.h", ["app"]⟩]

theorem staleTargets_ofAdditions_linked :
    ((∀ name, ¬ DependsOn linked name name) ∧ ∃ order stale,
      (ofAdditions linked).buildOrder = .ok order ∧
      (ofAdditions linked).staleTargets ["a.h", "docs", "x", "a.h"] = .ok stale ∧
      order.Nodup ∧ stale.Sublist order ∧
      ∀ name, name ∈ stale ↔ Stale linked ["a.h", "docs", "x", "a.h"] name) ∧
    ((∃ name, DependsOn looped name name) ∧ ∃ e, (ofAdditions looped).buildOrder = .error e ∧
      (ofAdditions looped).staleTargets ["a.md"] = .error e) ∧
    (ofAdditions linked).staleTargets ["docs", "x", "a.h"] = .ok ["a.o", "b.o", "app", "docs"] ∧
    (ofAdditions linked).staleTargets ["a.h", "docs", "x", "a.h"] =
      (ofAdditions linked).staleTargets ["docs", "x", "a.h"] := by
  obtain ⟨hordered, -, hsame⟩ := staleTargets_ofAdditions linked ["a.h", "docs", "x", "a.h"]
  have hno : ∀ name, ¬ DependsOn linked name name := by
    intro name hself
    have hmem := ((Merges.ofAdditions linked).listsLoops.mem_iff name).mpr hself
    have hnone : (ofAdditions linked).cycles.flatten = [] := by cbv
    rw [hnone] at hmem
    exact List.not_mem_nil hmem
  have hself : ∃ name, DependsOn looped name name := by
    obtain ⟨happ, hobject, hheader⟩ : Uses looped "app" "a.o" ∧ Uses looped "a.o" "a.h" ∧
        Uses looped "a.h" "app" := by
      unfold Uses
      decide
    exact ⟨"app", ((Relation.TransGen.single happ).tail hobject).tail hheader⟩
  refine ⟨⟨hno, hordered hno⟩, ⟨hself, ?_⟩, ?_, hsame _ (by simp)⟩
  · exact (staleTargets_ofAdditions looped ["a.md"]).2.1 hself
  · cbv

end BuildPlan

end TypeAlias
