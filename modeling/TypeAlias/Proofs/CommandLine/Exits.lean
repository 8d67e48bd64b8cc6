import TypeAlias.Proofs.CommandLine.Failures
import TypeAlias.Proofs.Diagnostics.Reports

/-!
# How checking and ordering end

A file whose definitions cannot be used, and one with a cycle, make the program fail when it checks
the file and when it puts the aliases in order. It also fails when it is to print a name that cannot
be written. What it prints is not the same in both cases: a check names the references that dangle,
and it writes data without trouble; an order names all declared aliases.
-/

namespace TypeAlias

open Dependencies Definitions Files Text

namespace CommandLine

variable {s : Surroundings} {file : String} {guarded : Bool} {session : Session}

/-- A reference of which one of the names cannot be written. -/
def Unwritable (d : DanglingReference) : Prop :=
  hasSurrogate d.owner.toString = true ∨ hasSurrogate d.reference.toString = true

/-- The names that a check and an order show can be written. -/
def Writable (env : Environment) (guarded : Bool) : Prop :=
  (∀ n ∈ env.aliasNames, hasSurrogate n.toString = false) ∧
    ∀ d ∈ env.dangling guarded, hasSurrogate d.reference.toString = false

/-- Then all dangling references can be written. -/
theorem Writable.dangling {env : Environment} (h : Writable env guarded) :
    ¬ ∃ d ∈ env.dangling guarded, Unwritable d := by
  obtain ⟨hnames, hreferences⟩ := h
  rintro ⟨d, hd, howner | hreference⟩
  · have hname : d.owner ∈ env.aliasNames := by
      obtain ⟨n, hn, hd⟩ := List.mem_flatMap.mp hd
      obtain ⟨ref, -, rfl⟩ := List.mem_map.mp hd
      exact hn
    rw [hnames _ hname] at howner
    cases howner
  · rw [hreferences d hd] at hreference
    cases hreference

/-- How the program ends when it checks definitions that it has loaded, and when it puts their
aliases in order. -/
structure Ends (env : Environment) (guarded json : Bool) (r : Report)
    (checking ordering : Outcome) : Prop where
  checking : checking.exit = 1 ↔
    r.hasCycles = true ∨ json = false ∧ ∃ d ∈ env.dangling guarded, Unwritable d
  ordering : ordering.exit = 1 ↔
    r.hasCycles = true ∨ ∃ n ∈ env.aliasNames, hasSurrogate n.toString = true

/-- When all names can be written, both end in the same way. -/
theorem Ends.alike {env : Environment} {json : Bool} {r : Report} {checking ordering : Outcome}
    (h : Ends env guarded json r checking ordering) (hw : Writable env guarded) :
    checking.exit = 1 ↔ ordering.exit = 1 := by
  have hnames : ¬ ∃ n ∈ env.aliasNames, hasSurrogate n.toString = true := by
    rintro ⟨n, hn, hname⟩
    rw [hw.1 n hn] at hname
    cases hname
  rw [h.checking, h.ordering, or_iff_left hnames, or_iff_left fun hd => hw.dangling hd.2]

end CommandLine

end TypeAlias
