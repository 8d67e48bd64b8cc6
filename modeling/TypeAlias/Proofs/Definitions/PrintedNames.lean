import TypeAlias.Proofs.Definitions.Accepted
import TypeAlias.Proofs.Diagnostics.Profiles
import TypeAlias.Proofs.Environment.Loops

/-!
# Printed names

Reports name aliases by what is printed of their canonical names. The segments of a canonical
namespace have been read from the name of an alias or from the target of a module alias. No segment
of a namespace ends in a colon when it has just been read, but the last segment of a target may, and
rewriting puts it into a namespace. That is the only way for two aliases to be printed alike: in the
other name the colon starts the next segment.
-/

namespace TypeAlias

namespace Definitions.Document

open TypeAlias.TypeName

variable {d : Document} {env : Environment} {n n' : TypeName} {s : String}

/-- The target of a module alias ends in a colon, and in the paths of two names that colon is at the
end of a segment and at the start of the next one. -/
def Clash (d : Document) (n n' : TypeName) : Prop :=
  ∃ e ∈ d.modules, ∃ s, e.target.name.name = s ++ ":" ∧ Shifted s n.path n'.path

/-- A canonical name is that of an alias, in a namespace of segments from that name and from the
targets of module aliases. -/
theorem exists_written (h : d.toEnvironment = .ok env) (hn : n ∈ env.aliasNames) :
    ∃ e ∈ d.aliases, n.absolute = true ∧ n.name = e.name.name.name ∧
      ∀ s ∈ n.scope, s ∈ e.name.name.scope ∨ ∃ m ∈ d.modules, s ∈ m.target.name.path := by
  obtain ⟨stored, hstored⟩ := Environment.mem_aliasNames_iff.mp hn
  obtain ⟨decl, hdecl, hr, -⟩ := Environment.exists_declared_of_build h hstored
  obtain ⟨e, he, rfl⟩ := List.mem_map.mp hdecl
  obtain ⟨habsolute, hname⟩ := Environment.rewrite?_last hr
  refine ⟨e, he, habsolute, hname, fun s hs => ?_⟩
  refine (Environment.mem_scope_of_rewrite? hr hs).imp_right ?_
  rintro ⟨target, htarget, hs⟩
  rw [Table.values, (Environment.build_eq_ok_iff.mp h).1, List.map_map, List.map_map] at htarget
  obtain ⟨m, hm, rfl⟩ := List.mem_map.mp htarget
  exact ⟨m, hm, hs⟩

theorem absolute_of_mem (h : d.toEnvironment = .ok env) (hn : n ∈ env.aliasNames) :
    n.absolute = true := by
  obtain ⟨-, -, habsolute, -⟩ := exists_written h hn
  exact habsolute

/-- All segments of a canonical name could have been read from a text. -/
theorem segment_of_mem (h : d.toEnvironment = .ok env) (hn : n ∈ env.aliasNames) :
    ∀ s ∈ n.path, Segment s := by
  obtain ⟨e, -, -, hname, hscope⟩ := exists_written h hn
  intro s hs
  rcases List.mem_append.mp hs with hs | hs
  · rcases hscope s hs with hs | ⟨m, -, hs⟩
    · exact segment_of_mem_path e.name.parse_text (List.mem_append_left _ hs)
    · exact segment_of_mem_path m.target.parse_text hs
  · apply segment_of_mem_path e.name.parse_text
    rw [List.mem_singleton.mp hs, hname]
    exact List.mem_append_right _ List.mem_cons_self

/-- A segment that ends in a colon is in a canonical namespace because it is the last one of a
target. -/
theorem exists_target_of_colon (h : d.toEnvironment = .ok env) (hn : n ∈ env.aliasNames)
    (hs : s ++ ":" ∈ n.scope) : ∃ m ∈ d.modules, m.target.name.name = s ++ ":" := by
  obtain ⟨e, -, -, -, hscope⟩ := exists_written h hn
  rcases hscope _ hs with hs | ⟨m, hm, hs⟩
  · exact absurd hs (append_colon_not_mem_scope e.name.parse_text s)
  · rcases List.mem_append.mp hs with hs | hs
    · exact absurd hs (append_colon_not_mem_scope m.target.parse_text s)
    · exact ⟨m, hm, (List.mem_singleton.mp hs).symm⟩

/-- What is shifted from one canonical name to another has come from a target. -/
theorem clash_of_shifted (h : d.toEnvironment = .ok env) (hn : n ∈ env.aliasNames)
    (hshifted : Shifted s n.path n'.path) : d.Clash n n' := by
  obtain ⟨before, after, t, after', hafter, -, hpath, -⟩ := id hshifted
  have hscope : s ++ ":" ∈ n.scope := by
    have hdropLast : n.scope = n.path.dropLast := List.dropLast_concat.symm
    rw [hdropLast, hpath, List.dropLast_append_of_ne_nil (List.cons_ne_nil _ _),
      List.dropLast_cons_of_ne_nil hafter]
    exact List.mem_append_right _ List.mem_cons_self
  obtain ⟨m, hm, htarget⟩ := exists_target_of_colon h hn hscope
  exact ⟨m, hm, s, htarget, hshifted⟩

theorem toString_eq_iff_clash (h : d.toEnvironment = .ok env) (hn : n ∈ env.aliasNames)
    (hn' : n' ∈ env.aliasNames) :
    n.toString = n'.toString ↔ n = n' ∨ d.Clash n n' ∨ d.Clash n' n := by
  have habsolute := absolute_of_mem h hn
  have habsolute' := absolute_of_mem h hn'
  rw [TypeName.toString_eq_iff habsolute habsolute',
    intercalate_eq_iff (segment_of_mem h hn) (segment_of_mem h hn')]
  constructor
  · rintro (hpath | ⟨s, hshifted | hshifted⟩)
    · exact Or.inl (TypeName.eq_of_path (habsolute.trans habsolute'.symm) hpath)
    · exact Or.inr (Or.inl (clash_of_shifted h hn hshifted))
    · exact Or.inr (Or.inr (clash_of_shifted h hn' hshifted))
  · rintro (rfl | ⟨-, -, s, -, hshifted⟩ | ⟨-, -, s, -, hshifted⟩)
    · exact Or.inl rfl
    · exact Or.inr ⟨s, Or.inl hshifted⟩
    · exact Or.inr ⟨s, Or.inr hshifted⟩

/-- Two aliases are printed alike just when a colon from the end of the target of a module alias
clashes with one at the start of a segment. Aliases that do not clash are sorted by what is printed
in one order only. Where no target ends in a colon, what is printed of an alias identifies it. -/
theorem printed_names (h : d.toEnvironment = .ok env) :
    (∀ n ∈ env.aliasNames, ∀ n' ∈ env.aliasNames,
      (n.toString = n'.toString ↔ n = n' ∨ d.Clash n n' ∨ d.Clash n' n)) ∧
    (∀ names names', names ⊆ env.aliasNames → (∀ n ∈ names, ∀ n' ∈ names, ¬ d.Clash n n') →
      names.Perm names' → sortByText names = sortByText names') ∧
    ((∀ e ∈ d.modules, ∀ s, e.target.name.name ≠ s ++ ":") →
      ∀ n ∈ env.aliasNames, ∀ n' ∈ env.aliasNames, n.toString = n'.toString → n = n') := by
  refine ⟨fun n hn n' hn' => toString_eq_iff_clash h hn hn', ?_, ?_⟩
  · intro names names' hnames hclash hperm
    apply sortByText_eq hperm
    intro n hn n' hn' heq
    rcases (toString_eq_iff_clash h (hnames hn) (hnames hn')).mp heq with heq | hc | hc
    · exact heq
    · exact absurd hc (hclash n hn n' hn')
    · exact absurd hc (hclash n' hn' n hn)
  · intro htargets n hn n' hn' heq
    rcases (toString_eq_iff_clash h hn hn').mp heq with heq | ⟨e, he, s, hs, -⟩ | ⟨e, he, s, hs, -⟩
    · exact heq
    · exact absurd hs (htargets e he s)
    · exact absurd hs (htargets e he s)

/-- An alias in a module that stands for another one, and an alias below a name with a colon at its
start. -/
def besideColon (target : String) : Data.Part :=
  .ofValue (.object [
    ("module_aliases", .list [.object [("name", .str "M"), ("target", .str target)]]),
    ("aliases", .list [
      .object [("name", .str "M::B::x"), ("type", .object [("kind", .str "alias"),
        ("name", .str "A:::B::x")])],
      .object [("name", .str "A:::B::x"), ("type", .object [("kind", .str "base"),
        ("name", .str "nil")])]])])

theorem printed_names_besideColon :
    ∃ d env, Document.ofPart (besideColon "A") = .ok d ∧ d.toEnvironment = .ok env ∧
      env.aliasNames = [⟨"x", ["A", "B"], true⟩, ⟨"x", ["A", ":B"], true⟩] ∧
      (∀ n ∈ env.aliasNames, ∀ n' ∈ env.aliasNames, n.toString = n'.toString → n = n') ∧
      sortByText env.aliasNames = sortByText env.aliasNames.reverse := by
  obtain ⟨d, env, hd, henv, hmodules, hnames⟩ : ∃ d env,
      Document.ofPart (besideColon "A") = .ok d ∧ d.toEnvironment = .ok env ∧
        d.modules.map (fun e => e.target.name.name) = ["A"] ∧
        env.aliasNames = [⟨"x", ["A", "B"], true⟩, ⟨"x", ["A", ":B"], true⟩] :=
    ⟨_, _, rfl, rfl, rfl, rfl⟩
  have htargets : ∀ e ∈ d.modules, ∀ s, e.target.name.name ≠ s ++ ":" := by
    intro e he s heq
    have hmem : s ++ ":" ∈ ["A"] := by
      rw [← hmodules, ← heq]
      exact List.mem_map_of_mem he
    have hlast := congrArg (fun t : String => t.toList.getLast?) (List.mem_singleton.mp hmem)
    simp at hlast
  obtain ⟨-, horder, hidentify⟩ := printed_names henv
  refine ⟨d, env, hd, henv, hnames, hidentify htargets, ?_⟩
  apply horder _ _ (List.Subset.refl _) ?_ (List.reverse_perm _).symm
  rintro n - n' - ⟨e, he, s, hs, -⟩
  exact htargets e he s hs

/-- A document is accepted that declares two aliases that are printed alike, and sorting them by
what is printed keeps them in the order in which they come. -/
theorem printed_alike_besideColon :
    ∃ d env, Document.ofPart (besideColon "A:") = .ok d ∧ d.toEnvironment = .ok env ∧
      ∃ n ∈ env.aliasNames, ∃ n' ∈ env.aliasNames, n ≠ n' ∧ n.toString = n'.toString ∧
        sortByText [n, n'] ≠ sortByText [n', n] := by
  obtain ⟨d, env, hd, henv, hnames⟩ : ∃ d env,
      Document.ofPart (besideColon "A:") = .ok d ∧ d.toEnvironment = .ok env ∧
        env.aliasNames = [⟨"x", ["A:", "B"], true⟩, ⟨"x", ["A", ":B"], true⟩] :=
    ⟨_, _, rfl, rfl, rfl⟩
  refine ⟨d, env, hd, henv, ⟨"x", ["A:", "B"], true⟩, ?_, ⟨"x", ["A", ":B"], true⟩, ?_,
    by decide, by decide, ?_⟩
  · rw [hnames]
    exact List.mem_cons_self
  · rw [hnames]
    exact List.mem_cons_of_mem _ List.mem_cons_self
  · rw [sortByText, sortByText, List.mergeSort_of_pairwise (by decide),
      List.mergeSort_of_pairwise (by decide)]
    decide

end Definitions.Document

end TypeAlias
