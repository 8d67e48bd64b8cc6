import Mathlib.Data.List.Infix
import TypeAlias.TypeName

/-!
# Segments of type names

A text is cut at each separator of two colons, from left to right, and a name is written with a
separator between its segments. A segment may begin or end in a single colon, so two paths that are
written alike can differ: by a colon that ends a segment in one and starts the next segment in the
other. But a text is cut where a separator first occurs, and then none of its segments ends in a
colon, except for the last one.
-/

namespace TypeAlias

namespace TypeName

variable {text s t : String} {n n' : TypeName} {cs : List Char} {p q : List String}

/-! ## Reading segments -/

theorem splitSegments_ne_nil (cs : List Char) : splitSegments cs ≠ [] := by
  fun_cases splitSegments cs <;> exact List.cons_ne_nil _ _

/-- Nothing is lost when a text is cut. -/
theorem intercalate_splitSegments (cs : List Char) :
    [':', ':'].intercalate (splitSegments cs) = cs := by
  fun_induction splitSegments cs with
  | case1 => rfl
  | case2 rest ih =>
    obtain ⟨s, ss, hpieces⟩ := List.exists_cons_of_ne_nil (splitSegments_ne_nil rest)
    rw [hpieces, List.intercalate_cons_cons, ← hpieces, ih]
    rfl
  | case3 c rest _ hpieces => exact absurd hpieces (splitSegments_ne_nil rest)
  | case4 c rest _ s ss hpieces ih =>
    rw [hpieces] at ih
    rw [← ih]
    cases ss <;> simp [List.intercalate_cons_cons]

/-- A text starts with its first piece. -/
theorem isPrefix_of_splitSegments {first : List Char} {pieces : List (List Char)}
    (h : splitSegments cs = first :: pieces) : first <+: cs := by
  rw [← intercalate_splitSegments cs, h]
  cases pieces with
  | nil => rw [List.intercalate_singleton]
  | cons second pieces =>
    rw [List.intercalate_cons_cons, List.append_assoc]
    exact List.prefix_append _ _

/-- No separator is left in a piece. -/
theorem not_infix_of_mem_splitSegments (cs : List Char) :
    ∀ piece ∈ splitSegments cs, ¬ [':', ':'] <:+: piece := by
  fun_induction splitSegments cs with
  | case1 => simp
  | case2 rest ih => simpa using ih
  | case3 c rest _ hpieces => exact absurd hpieces (splitSegments_ne_nil rest)
  | case4 c rest hcut first pieces hpieces ih =>
    rw [hpieces, List.forall_mem_cons] at ih
    rw [List.forall_mem_cons]
    refine ⟨?_, ih.2⟩
    rw [List.infix_cons_iff]
    rintro (hstart | hlater)
    · obtain ⟨rfl, hsecond⟩ := List.cons_prefix_cons.mp hstart
      obtain ⟨more, hrest⟩ := hsecond.trans (isPrefix_of_splitSegments hpieces)
      exact hcut more rfl hrest.symm
    · exact ih.1 hlater

/-- No piece but the last one ends in a colon. -/
theorem concat_not_mem_dropLast_splitSegments (cs piece : List Char) :
    piece ++ [':'] ∉ (splitSegments cs).dropLast := by
  fun_induction splitSegments cs generalizing piece with
  | case1 => exact List.not_mem_nil
  | case2 rest ih =>
    rw [List.dropLast_cons_of_ne_nil (splitSegments_ne_nil rest), List.mem_cons]
    rintro (hempty | hlater)
    · simp at hempty
    · exact ih piece hlater
  | case3 c rest _ hpieces => exact absurd hpieces (splitSegments_ne_nil rest)
  | case4 c rest hcut first pieces hpieces ih =>
    cases pieces with
    | nil => exact List.not_mem_nil
    | cons second pieces =>
      rw [hpieces, List.dropLast_cons_of_ne_nil (List.cons_ne_nil _ _)] at ih
      rw [List.dropLast_cons_of_ne_nil (List.cons_ne_nil _ _), List.mem_cons]
      rintro (hfirst | hlater)
      · cases piece with
        | nil =>
          obtain ⟨rfl, rfl⟩ := List.cons.inj hfirst
          have hrest := intercalate_splitSegments rest
          rw [hpieces, List.intercalate_cons_cons] at hrest
          exact hcut _ rfl hrest.symm
        | cons d piece =>
          obtain ⟨-, rfl⟩ := List.cons.inj hfirst
          exact ih piece List.mem_cons_self
      · exact ih piece (List.mem_cons_of_mem _ hlater)

/-- A name that was read from a text is made of its segments. -/
theorem exists_segments (h : parse? text = some n) :
    ∃ before last, segments (Text.trim text.toList) = before ++ [last] ∧
      n = {
        name := String.ofList last
        scope := before.map String.ofList
        absolute := [':', ':'].isPrefixOf (Text.trim text.toList) } := by
  unfold parse? ofChars? at h
  dsimp only at h
  split at h
  · cases h
  · next last before hparts =>
    cases h
    refine ⟨before.reverse, last, ?_, rfl⟩
    rw [← List.reverse_reverse (segments _), hparts, List.reverse_cons]

/-- A segment that can be read from a text: there is something in it, but no separator. -/
structure Segment (s : String) : Prop where
  ne_empty : s ≠ ""
  uncut : ¬ [':', ':'] <:+: s.toList

/-- What precedes the last item that is kept also precedes the last item. -/
theorem dropLast_filter_subset (keep : List Char → Bool) (pieces : List (List Char)) :
    (pieces.filter keep).dropLast ⊆ pieces.dropLast := by
  rcases pieces.eq_nil_or_concat with rfl | ⟨before, last, rfl⟩
  · exact List.Subset.refl _
  rw [List.concat_eq_append, List.filter_append, List.dropLast_concat]
  have hbefore : before.filter keep ⊆ before := List.filter_sublist.subset
  cases hlast : keep last with
  | true =>
    rw [List.filter_singleton, hlast, cond_true, List.dropLast_concat]
    exact hbefore
  | false =>
    rw [List.filter_singleton, hlast, cond_false, List.append_nil]
    exact fun _ hpiece => hbefore (List.dropLast_subset _ hpiece)

/-- The segments of a name that has been read. -/
theorem segment_of_mem_path (h : parse? text = some n) (hs : s ∈ n.path) : Segment s := by
  obtain ⟨before, last, hparts, rfl⟩ := exists_segments h
  have hpath : s ∈ (before ++ [last]).map String.ofList := by
    rw [List.map_append]
    exact hs
  obtain ⟨piece, hpiece, rfl⟩ := List.mem_map.mp hpath
  rw [← hparts] at hpiece
  obtain ⟨hcut, hne⟩ := List.mem_filter.mp hpiece
  constructor
  · rw [Ne, String.ofList_eq_empty_iff]
    simpa using hne
  · rw [String.toList_ofList]
    exact not_infix_of_mem_splitSegments _ piece hcut

/-- When a name has just been read, no segment of its namespace ends in a colon. -/
theorem append_colon_not_mem_scope (h : parse? text = some n) (s : String) :
    s ++ ":" ∉ n.scope := by
  obtain ⟨before, last, hparts, rfl⟩ := exists_segments h
  intro hs
  obtain ⟨piece, hpiece, heq⟩ := List.mem_map.mp hs
  have hbefore : before = (segments (Text.trim text.toList)).dropLast := by
    rw [hparts, List.dropLast_concat]
  rw [hbefore] at hpiece
  have hcut := dropLast_filter_subset _ _ hpiece
  obtain rfl : piece = s.toList ++ [':'] := by
    rw [← String.toList_ofList (l := piece), heq, String.toList_append]
    rfl
  exact concat_not_mem_dropLast_splitSegments _ _ hcut

/-! ## Joining segments -/

/-- What follows the first segment where a path is written. -/
def following : List String → List Char
  | [] => []
  | s :: p => ':' :: ':' :: ("::".intercalate (s :: p)).toList

theorem toList_intercalate_cons (s : String) (p : List String) :
    ("::".intercalate (s :: p)).toList = s.toList ++ following p := by
  cases p with
  | nil => rw [String.intercalate_singleton, following, List.append_nil]
  | cons t p =>
    rw [String.intercalate_cons_cons, String.toList_append, String.toList_append, following,
      List.append_assoc]
    rfl

theorem following_of_ne_nil (h : p ≠ []) :
    following p = ':' :: ':' :: ("::".intercalate p).toList := by
  cases p with
  | nil => exact absurd rfl h
  | cons => rfl

/-- What follows the first segment tells what the other ones are written as. -/
theorem following_eq_iff : following p = following q ↔
    (p = [] ↔ q = []) ∧ "::".intercalate p = "::".intercalate q := by
  cases p <;> cases q <;> simp [following, -String.toList_intercalate, String.toList_inj]

/-- Some segment ends in a colon in one path, and in the other one the colon is at the start of the
next segment. -/
def Shifted (s : String) (p q : List String) : Prop :=
  ∃ before after t after', after ≠ [] ∧ "::".intercalate after = "::".intercalate (t :: after') ∧
    p = before ++ (s ++ ":") :: after ∧ q = before ++ s :: (":" ++ t) :: after'

theorem Shifted.cons (h : Shifted s p q) (t : String) : Shifted s (t :: p) (t :: q) := by
  obtain ⟨before, after, u, after', hne, hafter, rfl, rfl⟩ := h
  exact ⟨t :: before, after, u, after', hne, hafter, rfl, rfl⟩

/-- Where what follows is written with one more colon than something else, the next segment starts
with it. -/
theorem exists_colon_of_following (hp : ∀ s ∈ p, Segment s)
    (h : following p = ':' :: following q) :
    ∃ t rest, p = (":" ++ t) :: rest ∧ q ≠ [] ∧
      "::".intercalate q = "::".intercalate (t :: rest) := by
  cases p with
  | nil => cases h
  | cons s rest =>
    cases q with
    | nil => cases h
    | cons u q =>
      have hnext : s.toList ++ following rest = ':' :: ("::".intercalate (u :: q)).toList := by
        rw [← toList_intercalate_cons]
        exact (List.cons.inj (List.cons.inj h).2).2
      cases hs : s.toList with
      | nil => exact absurd (String.toList_eq_nil_iff.mp hs) (hp s List.mem_cons_self).ne_empty
      | cons c t =>
        rw [hs, List.cons_append] at hnext
        obtain ⟨rfl, hrest⟩ := List.cons.inj hnext
        have hfirst : s = ":" ++ String.ofList t := by
          rw [← String.toList_inj, hs, String.toList_append]
          simp
        refine ⟨String.ofList t, rest, by rw [hfirst], List.cons_ne_nil _ _, ?_⟩
        rw [← String.toList_inj, toList_intercalate_cons (String.ofList t), String.toList_ofList,
          hrest]

/-- Where one of two segments at the same place goes on after the other one has ended, it is by a
colon. -/
theorem shifted_of_longer {more : List Char} (ht : Segment t) (hp : ∀ u ∈ p, Segment u)
    (hne : t ≠ s) (hlonger : t.toList = s.toList ++ more)
    (hrest : following p = more ++ following q) : Shifted s (t :: q) (s :: p) := by
  match more, p with
  | [], _ =>
    rw [List.append_nil, String.toList_inj] at hlonger
    exact absurd hlonger hne
  | [c], u :: p =>
    obtain rfl : ':' = c := (List.cons.inj hrest).1
    have hlast : t = s ++ ":" := by
      rw [← String.toList_inj, hlonger, String.toList_append]
      rfl
    obtain ⟨v, rest, hnext, hq, hafter⟩ := exists_colon_of_following hp hrest
    rw [hlast, hnext]
    exact ⟨[], q, v, rest, hq, hafter, rfl, rfl⟩
  | c :: d :: more, u :: p =>
    obtain ⟨hc, hd⟩ := List.cons.inj hrest
    obtain rfl : ':' = d := (List.cons.inj hd).1
    rw [← hc] at hlonger
    exact absurd ⟨s.toList, more, by rw [hlonger]; simp⟩ ht.uncut

theorem Shifted.intercalate_eq (h : Shifted s p q) :
    "::".intercalate p = "::".intercalate q := by
  obtain ⟨before, after, t, after', hne, hafter, rfl, rfl⟩ := h
  induction before with
  | nil =>
    rw [List.nil_append, List.nil_append, ← String.toList_inj, toList_intercalate_cons,
      toList_intercalate_cons, following_of_ne_nil hne, hafter, following, toList_intercalate_cons,
      toList_intercalate_cons, String.toList_append, String.toList_append]
    simp
  | cons b before ih =>
    rw [List.cons_append, List.cons_append, ← String.toList_inj, toList_intercalate_cons,
      toList_intercalate_cons, following_eq_iff.mpr ⟨by simp, ih⟩]

theorem intercalate_cons_ne_empty (h : Segment s) (p : List String) :
    "::".intercalate (s :: p) ≠ "" := by
  intro hempty
  rw [← String.toList_inj, toList_intercalate_cons, String.toList_empty] at hempty
  exact h.ne_empty (String.toList_eq_nil_iff.mp (List.append_eq_nil_iff.mp hempty).1)

/-- Two paths are written alike just when they differ in nothing but the place of a colon. -/
theorem intercalate_eq_iff (hp : ∀ s ∈ p, Segment s) (hq : ∀ s ∈ q, Segment s) :
    "::".intercalate p = "::".intercalate q ↔ p = q ∨ ∃ s, Shifted s p q ∨ Shifted s q p := by
  constructor
  · intro h
    induction p generalizing q with
    | nil =>
      cases q with
      | nil => exact Or.inl rfl
      | cons t q => exact absurd h.symm (intercalate_cons_ne_empty (hq t List.mem_cons_self) q)
    | cons s p ih =>
      cases q with
      | nil => exact absurd h (intercalate_cons_ne_empty (hp s List.mem_cons_self) p)
      | cons t q =>
        rw [List.forall_mem_cons] at hp hq
        rw [← String.toList_inj, toList_intercalate_cons, toList_intercalate_cons] at h
        by_cases hst : s = t
        · subst hst
          have hrest := (following_eq_iff.mp (List.append_cancel_left h)).2
          rcases ih hp.2 hq.2 hrest with rfl | ⟨u, hu⟩
          · exact Or.inl rfl
          · exact Or.inr ⟨u, hu.imp (·.cons s) (·.cons s)⟩
        · rcases List.append_eq_append_iff.mp h with ⟨more, hlonger, hrest⟩ | ⟨more, hlonger, hrest⟩
          · exact Or.inr ⟨s, Or.inr (shifted_of_longer hq.1 hp.2 (Ne.symm hst) hlonger hrest)⟩
          · exact Or.inr ⟨t, Or.inl (shifted_of_longer hp.1 hq.2 hst hlonger hrest)⟩
  · rintro (rfl | ⟨s, h | h⟩)
    · rfl
    · exact h.intercalate_eq
    · exact h.intercalate_eq.symm

/-- Two absolute names are printed alike just when their paths are written alike. -/
theorem toString_eq_iff (h : n.absolute = true)
    (h' : n'.absolute = true) :
    n.toString = n'.toString ↔ "::".intercalate n.path = "::".intercalate n'.path := by
  rw [toString, toString, h, h', String.append_right_inj]

theorem eq_of_path (h : n.absolute = n'.absolute)
    (hpath : n.path = n'.path) : n = n' := by
  obtain ⟨name, scope, absolute⟩ := n
  obtain ⟨name', scope', absolute'⟩ := n'
  obtain ⟨rfl, hname⟩ := List.append_inj' hpath rfl
  obtain rfl : name = name' := (List.cons.inj hname).1
  obtain rfl : absolute = absolute' := h
  rfl

end TypeName

end TypeAlias
