import TypeAlias.BuildPlan
import TypeAlias.Proofs.FirstOccurrences
import TypeAlias.Proofs.Graph.Order

/-!
# Plans that come about by additions

Targets are added to a plan one after the other, with inputs, and a target may be added again. The
plan merges the additions: it mentions every name once, in order of first mention, with every input
that was ever given for it. It can be built when no target depends on itself; otherwise the first
of its dependency loops stands in the way.
-/

namespace TypeAlias

namespace BuildPlan

/-- A target with inputs to be added to a plan. -/
structure Addition where
  target : String
  inputs : List String := []

/-- The names that an addition mentions, in order. -/
def Addition.names (a : Addition) : List String :=
  a.target :: a.inputs

/-- The plan of some additions. -/
def ofAdditions (as : List Addition) : BuildPlan :=
  as.foldl (fun p a => p.add a.target a.inputs) {}

/-- Some addition gives a target an input. -/
def Uses (as : List Addition) (target input : String) : Prop :=
  ∃ a ∈ as, a.target = target ∧ input ∈ a.inputs

/-- A target uses a name, or an input that depends on it. -/
abbrev DependsOn (as : List Addition) : String → String → Prop :=
  Relation.TransGen (Uses as)

/-- The inputs given for a target, in order, with repeats. -/
def given (as : List Addition) (target : String) : List String :=
  (as.filter fun a => a.target = target).flatMap Addition.inputs

theorem mem_given {as : List Addition} {target input : String} :
    input ∈ given as target ↔ Uses as target input := by
  simp [given, Uses, and_assoc]

theorem given_concat (as : List Addition) (a : Addition) (target : String) :
    given (as ++ [a]) target = given as target ++ if a.target = target then a.inputs else [] := by
  by_cases h : a.target = target <;> simp [given, h]

/-! ## Additions are merged -/

section Tables

variable {t : Table String (List String)} {name target input : String}
  {names inputs : List String}

theorem keys_mention (h : t.keys = names.eraseDups) :
    (mention t name).keys = (names ++ [name]).eraseDups := by
  rw [eraseDups_concat, ← h, mention]
  by_cases hn : name ∈ t.keys
  · rw [if_pos hn, if_pos (Table.contains_iff.mpr hn)]
  · rw [if_neg hn, if_neg fun hc => hn (Table.contains_iff.mp hc), Table.keys_insert, if_neg hn]

/-- Mentioning a name gives it no inputs. -/
theorem inputs_mention (t : Table String (List String)) (name x : String) :
    ((mention t name).get? x).getD [] = (t.get? x).getD [] := by
  unfold mention
  split
  · rfl
  · next h =>
    rw [Table.get?_insert]
    split
    · next hx =>
      have hn : t.get? x = none := by
        rw [Table.get?_eq_none_iff, hx]
        exact fun hm => h (Table.contains_iff.mpr hm)
      rw [hn]
      rfl
    · rfl

theorem mem_keys_mention : name ∈ (mention t name).keys := by
  unfold mention
  split
  · next h => exact Table.contains_iff.mp h
  · exact Table.mem_keys_insert.mpr (Or.inl rfl)

theorem keys_addInput (target input : String) (h : t.keys = names.eraseDups) :
    (addInput target t input).keys = (names ++ [input]).eraseDups :=
  keys_mention ((Table.keys_modify _ _ _).trans h)

/-- An input that a target has not had before comes last. -/
theorem inputs_addInput (ht : target ∈ t.keys)
    (h : (t.get? target).getD [] = inputs.eraseDups) :
    ((addInput target t input).get? target).getD [] = (inputs ++ [input]).eraseDups := by
  obtain ⟨old, hold⟩ := Table.mem_keys_iff_get?.mp ht
  rw [hold, Option.getD_some] at h
  rw [addInput, inputs_mention, Table.get?_modify, if_pos rfl, hold, Option.map_some,
    Option.getD_some, eraseDups_concat, h]

/-- No other target gets the input. -/
theorem inputs_addInput_of_ne {x : String} (hx : x ≠ target) :
    ((addInput target t input).get? x).getD [] = (t.get? x).getD [] := by
  rw [addInput, inputs_mention, Table.get?_modify, if_neg hx]

/-- A target gets several inputs. -/
theorem foldl_addInput (added : List String) (ht : target ∈ t.keys)
    (hk : t.keys = names.eraseDups) (hi : (t.get? target).getD [] = inputs.eraseDups) :
    (added.foldl (addInput target) t).keys = (names ++ added).eraseDups ∧
      ((added.foldl (addInput target) t).get? target).getD [] = (inputs ++ added).eraseDups ∧
      ∀ x, x ≠ target →
        ((added.foldl (addInput target) t).get? x).getD [] = (t.get? x).getD [] := by
  induction added generalizing t names inputs with
  | nil =>
    rw [List.append_nil, List.append_nil]
    exact ⟨hk, hi, fun _ _ => rfl⟩
  | cons input added ih =>
    have hk' := keys_addInput target input hk
    have ht' : target ∈ (addInput target t input).keys := by
      rw [hk', List.mem_eraseDups, List.mem_append, ← List.mem_eraseDups, ← hk]
      exact Or.inl ht
    obtain ⟨hkeys, hinputs, hothers⟩ := ih ht' hk' (inputs_addInput ht hi)
    rw [List.append_assoc, List.singleton_append] at hkeys hinputs
    exact ⟨hkeys, hinputs, fun x hx => (hothers x hx).trans (inputs_addInput_of_ne hx)⟩

end Tables

/-- A plan merges some additions. -/
structure Merges (as : List Addition) (p : BuildPlan) : Prop where
  keys : p.inputs.keys = (as.flatMap Addition.names).eraseDups
  inputs : ∀ target, p.inputsOf target = (given as target).eraseDups

namespace Merges

variable {as : List Addition} {p : BuildPlan}

/-- One more addition. -/
theorem add (h : Merges as p) (a : Addition) :
    Merges (as ++ [a]) (p.add a.target a.inputs) := by
  have hinputs : ((mention p.inputs a.target).get? a.target).getD [] =
      (given as a.target).eraseDups := (inputs_mention _ _ _).trans (h.inputs a.target)
  obtain ⟨hk, ht, hothers⟩ := foldl_addInput a.inputs mem_keys_mention
    (keys_mention h.keys) hinputs
  constructor
  · rw [BuildPlan.add, hk, List.flatMap_append, List.append_assoc]
    simp [Addition.names]
  · intro target
    rw [given_concat]
    split
    · next ha =>
      subst ha
      exact ht
    · next ha =>
      rw [List.append_nil, ← h.inputs target]
      exact (hothers target (Ne.symm ha)).trans (inputs_mention _ _ _)

/-- All additions. -/
theorem ofAdditions (as : List Addition) : Merges as (ofAdditions as) := by
  induction as using List.reverseRecOn with
  | nil => exact ⟨rfl, fun _ => rfl⟩
  | append_singleton as a ih =>
    rw [BuildPlan.ofAdditions, List.foldl_append]
    exact ih.add a

theorem mem_inputsOf (h : Merges as p) {target input : String} :
    input ∈ p.inputsOf target ↔ Uses as target input := by
  rw [h.inputs, List.mem_eraseDups, mem_given]

theorem mem_keys (h : Merges as p) {name : String} :
    name ∈ p.inputs.keys ↔ ∃ a ∈ as, name ∈ a.names := by
  rw [h.keys, List.mem_eraseDups, List.mem_flatMap]

end Merges

/-! ## Order and loops -/

/-- A component is a dependency loop when it holds a cycle. -/
theorem isLoop_eq (p : BuildPlan) (c : List String) :
    p.isLoop c = decide (p.graph.HoldsCycle c) := by
  have hsucc (x : String) : p.graph.succ x = p.inputsOf x := rfl
  match c with
  | [] => simp [isLoop, Digraph.HoldsCycle]
  | [x] => simp [isLoop, Digraph.HoldsCycle, hsucc]
  | x :: y :: c => simp [isLoop, Digraph.HoldsCycle]

theorem mem_cycles_iff {p : BuildPlan} {c : List String} :
    c ∈ p.cycles ↔ c ∈ p.components ∧ p.graph.HoldsCycle c := by
  rw [cycles, List.mem_filter, isLoop_eq, decide_eq_true_eq]

/-- The first dependency loop is the first component with a cycle. -/
theorem head?_cycles (p : BuildPlan) :
    p.cycles.head? = p.components.find? fun c => decide (p.graph.HoldsCycle c) := by
  rw [cycles, List.head?_filter]
  exact congrArg (p.components.find? ·) (funext p.isLoop_eq)

namespace Merges

variable {as : List Addition} {p : BuildPlan} {x y : String}

theorem leadsTo_iff (h : Merges as p) : p.graph.LeadsTo x y ↔ DependsOn as x y := by
  have hedge : p.graph.Edge = Uses as := by
    funext x y
    exact propext h.mem_inputsOf
  rw [Digraph.LeadsTo, hedge]

/-- What is within reach of the names of a plan are these names. -/
theorem mem_reachable_iff (h : Merges as p) :
    x ∈ p.graph.reachable p.inputs.keys ↔ x ∈ p.inputs.keys := by
  constructor
  · rintro ⟨y, hy, hr⟩
    apply hr.keeps (p := (· ∈ p.inputs.keys)) ?_ hy
    intro z _ w hw
    obtain ⟨a, ha, -, hi⟩ := h.mem_inputsOf.mp hw
    exact h.mem_keys.mpr ⟨a, ha, List.mem_cons_of_mem _ hi⟩
  · exact Digraph.mem_reachable_of_mem

theorem mem_keys_of_dependsOn (h : Merges as p) (hxy : DependsOn as x y) : x ∈ p.inputs.keys := by
  obtain ⟨z, ⟨a, ha, rfl, -⟩, -⟩ := Relation.TransGen.head'_iff.mp hxy
  exact h.mem_keys.mpr ⟨a, ha, List.mem_cons_self⟩

end Merges

theorem decomposition (p : BuildPlan) :
    p.graph.Decomposition p.inputs.keys p.components :=
  Digraph.decomposition_trace? (p.graph.trace?_eq p.inputs.keys)

theorem orderLaw (p : BuildPlan) :
    p.graph.OrderLaw p.inputs.keys p.components (p.graph.trace p.inputs.keys).acyclicNodes
      p.buildOrder :=
  Digraph.orderLaw_trace? (p.graph.trace?_eq p.inputs.keys)

/-- A plan can be built when it has no dependency loop: then every input comes before the targets
that use it. Otherwise the first loop stands in the way. -/
structure Buildable (as : List Addition) (p : BuildPlan) : Prop where
  ordered : p.cycles = [] → ∃ order, p.buildOrder = .ok order ∧ order.Perm p.inputs.keys ∧
    ∀ target input, Uses as target input → order.idxOf input < order.idxOf target
  blocked : ∀ loop others, p.cycles = loop :: others → p.buildOrder = .error ⟨loop⟩

/-- The loops of a plan are those of its components whose members depend on themselves. -/
structure ListsLoops (as : List Addition) (p : BuildPlan) : Prop where
  components : p.cycles.Sublist p.components
  ne_nil : ∀ c ∈ p.cycles, c ≠ []
  nodup : p.cycles.flatten.Nodup
  mem_iff : ∀ x, x ∈ p.cycles.flatten ↔ DependsOn as x x
  mem_iff_mutual : ∀ c ∈ p.cycles, ∀ x ∈ c, ∀ y, y ∈ c ↔ DependsOn as x y ∧ DependsOn as y x

/-- A plan has no dependency loops when no target depends on itself. -/
theorem cycles_eq_nil_iff {p : BuildPlan} :
    p.cycles = [] ↔ p.graph.Acyclic p.inputs.keys := by
  have hself := p.decomposition.leadsTo_self_iff
  rw [List.eq_nil_iff_forall_not_mem]
  constructor
  · intro hnone x hx hxx
    obtain ⟨c, hc⟩ := hself.mp ⟨x, hx, hxx⟩
    exact hnone c (mem_cycles_iff.mpr hc)
  · intro hacyclic c hc
    obtain ⟨x, hx, hxx⟩ := hself.mpr ⟨c, mem_cycles_iff.mp hc⟩
    exact hacyclic x hx hxx

theorem Merges.buildable {as : List Addition} {p : BuildPlan} (h : Merges as p) :
    Buildable as p := by
  have hlaw := p.orderLaw
  cases hb : p.buildOrder with
  | ok order =>
    rw [hb] at hlaw
    obtain ⟨hacyclic, horder, -⟩ := hlaw
    have hnone : p.cycles = [] := cycles_eq_nil_iff.mpr hacyclic
    have hmem (x : String) : x ∈ order ↔ x ∈ p.inputs.keys := by
      rw [horder.mem_iff, h.mem_reachable_iff]
    constructor
    case ordered =>
      refine fun _ => ⟨order, hb, ?_, ?_⟩
      · exact (List.perm_ext_iff_of_nodup horder.nodup p.inputs.nodup_keys).mpr hmem
      · intro target input huses
        have htarget : target ∈ order :=
          (hmem target).mpr (h.mem_keys_of_dependsOn (Relation.TransGen.single huses))
        exact horder.before target htarget input (h.mem_inputsOf.mpr huses)
    case blocked =>
      intro loop others hcycles
      rw [hnone] at hcycles
      cases hcycles
  | error e =>
    rw [hb] at hlaw
    obtain ⟨hcyclic, hfirst, -⟩ := hlaw
    constructor
    case ordered => exact fun hnone => absurd (cycles_eq_nil_iff.mp hnone) hcyclic
    case blocked =>
      intro loop others hcycles
      have hhead : p.cycles.head? = some e.members := p.head?_cycles.trans hfirst
      rw [hcycles, List.head?_cons, Option.some_inj] at hhead
      rw [hb, hhead]

theorem Merges.listsLoops {as : List Addition} {p : BuildPlan} (h : Merges as p) :
    ListsLoops as p := by
  have hd := p.decomposition
  constructor
  case components => exact List.filter_sublist
  case ne_nil => exact fun c hc => hd.ne_nil c (mem_cycles_iff.mp hc).1
  case nodup =>
    obtain ⟨heach, hdisjoint⟩ := List.nodup_flatten.mp hd.nodup
    exact List.nodup_flatten.mpr
      ⟨fun c hc => heach c (mem_cycles_iff.mp hc).1, hdisjoint.filter p.isLoop⟩
  case mem_iff =>
    intro x
    rw [← h.leadsTo_iff, List.mem_flatten]
    constructor
    · rintro ⟨c, hc, hx⟩
      obtain ⟨hc, hcycle⟩ := mem_cycles_iff.mp hc
      exact (hd.leadsTo_self_iff_holdsCycle hc hx).mpr hcycle
    · intro hxx
      have hx : x ∈ p.graph.reachable p.inputs.keys :=
        h.mem_reachable_iff.mpr (h.mem_keys_of_dependsOn (h.leadsTo_iff.mp hxx))
      obtain ⟨c, hc, hxc⟩ := List.mem_flatten.mp ((hd.mem_iff x).mpr hx)
      exact ⟨c, mem_cycles_iff.mpr ⟨hc, (hd.leadsTo_self_iff_holdsCycle hc hxc).mp hxx⟩, hxc⟩
  case mem_iff_mutual =>
    intro c hc x hx y
    obtain ⟨hc, hcycle⟩ := mem_cycles_iff.mp hc
    rw [← h.leadsTo_iff, ← h.leadsTo_iff]
    exact hd.mem_iff_mutual hc hcycle hx

/-- The plan of some additions, in whatever order they are made and however often a target is added
again, mentions all names in order of first mention, each with the inputs that were ever given for
it. It can be built when it has no dependency loops, and it finds all of them. -/
theorem ofAdditions_law (as : List Addition) :
    (ofAdditions as).inputs.keys = (as.flatMap Addition.names).eraseDups ∧
      (∀ target, ((ofAdditions as).inputsOf target).Nodup ∧
        ∀ input, input ∈ (ofAdditions as).inputsOf target ↔ Uses as target input) ∧
      Buildable as (ofAdditions as) ∧ ListsLoops as (ofAdditions as) := by
  have h := Merges.ofAdditions as
  refine ⟨h.keys, fun target => ⟨?_, fun _ => h.mem_inputsOf⟩, h.buildable, h.listsLoops⟩
  rw [h.inputs]
  exact nodup_eraseDups _

end BuildPlan

end TypeAlias
