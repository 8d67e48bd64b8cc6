import Mathlib.Data.List.DropRight
import Mathlib.Data.List.Flatten
import TypeAlias.Proofs.Definitions.PrintedNames
import TypeAlias.Proofs.Dependencies.Walks

/-!
# Names that are read back

What is printed of a name is cut at the same places again when it is read, so the name is read back.
There is one exception: the blanks at the end of a text do not count, but a name whose last segment
ends in a blank can be read from a text that goes on with a separator. Where that is printed, the
blank has come to the end.
-/

namespace TypeAlias

namespace Text

variable {cs : List Char} {c : Char}

theorem isBlank_of_head?_trim (h : (trim cs).head? = some c) : isBlank c = false := by
  obtain ⟨rest, hrest⟩ := List.rdropWhile_prefix isBlank (l := cs.dropWhile isBlank)
  have hfirst := List.head?_dropWhile_not isBlank cs
  have hhead : (cs.dropWhile isBlank).head? = some c := by
    rw [← hrest, List.head?_append]
    exact congrArg (Option.or · rest.head?) h
  rwa [hhead] at hfirst

theorem isBlank_of_getLast?_trim (h : (trim cs).getLast? = some c) : isBlank c = false := by
  obtain ⟨hne, rfl⟩ := List.mem_getLast?_eq_getLast h
  exact (Bool.not_eq_true _).mp (List.rdropWhile_last_not isBlank (cs.dropWhile isBlank) hne)

theorem trim_eq_self (hfirst : ∀ c, cs.head? = some c → isBlank c = false)
    (hlast : ∀ c, cs.getLast? = some c → isBlank c = false) : trim cs = cs := by
  have hdrop : cs.dropWhile isBlank = cs := by
    cases cs with
    | nil => rfl
    | cons c cs => rw [List.dropWhile_cons_of_neg (by simp [hfirst c rfl])]
  show (cs.dropWhile isBlank).rdropWhile isBlank = cs
  rw [hdrop, List.rdropWhile_eq_self_iff]
  intro hne
  simp [hlast _ (List.getLast?_eq_some_getLast hne)]

/-- A blank at the end does not count. -/
theorem length_trim_lt (h : cs.getLast? = some c) (hc : isBlank c = true) :
    (trim cs).length < cs.length := by
  have hsub : (trim cs).Sublist cs :=
    (List.rdropWhile_prefix isBlank _).sublist.trans (List.dropWhile_suffix _).sublist
  apply lt_of_le_of_ne hsub.length_le
  intro hlength
  have hsame := hsub.eq_of_length hlength
  rw [← hsame] at h
  rw [isBlank_of_getLast?_trim h] at hc
  exact Bool.false_ne_true hc

end Text

namespace TypeName

variable {text : String} {n : TypeName} {cs piece rest : List Char}
  {pieces : List (List Char)}

/-! ## Cutting what has been joined -/

theorem splitSegments_cons {c : Char} {first : List Char} (hcut : ¬ [':', ':'] <+: c :: cs)
    (h : splitSegments cs = first :: pieces) :
    splitSegments (c :: cs) = (c :: first) :: pieces := by
  rw [splitSegments]
  · rw [h]
  · rintro rest rfl rfl
    exact hcut ⟨rest, rfl⟩

theorem splitSegments_of_uncut (h : ¬ [':', ':'] <:+: piece) : splitSegments piece = [piece] := by
  induction piece with
  | nil => rfl
  | cons c piece ih =>
    rw [List.infix_cons_iff, not_or] at h
    exact splitSegments_cons h.1 (ih h.2)

/-- A text is cut at a separator that ends no earlier than it seems to. -/
theorem splitSegments_append (h : ¬ [':', ':'] <:+: piece) (hlast : ∀ body, piece ≠ body ++ [':']) :
    splitSegments (piece ++ ':' :: ':' :: rest) = piece :: splitSegments rest := by
  induction piece with
  | nil => rfl
  | cons c piece ih =>
    rw [List.infix_cons_iff, not_or] at h
    refine splitSegments_cons ?_ (ih h.2 fun body hbody => hlast (c :: body) (by rw [hbody]; rfl))
    rintro hcut
    obtain ⟨rfl, hsecond⟩ := List.cons_prefix_cons.mp hcut
    cases piece with
    | nil => exact hlast [] rfl
    | cons d piece =>
      obtain ⟨rfl, -⟩ := List.cons_prefix_cons.mp hsecond
      exact h.1 ⟨piece, rfl⟩

/-- Pieces that have been joined are cut apart again. -/
theorem splitSegments_intercalate (hne : pieces ≠ [])
    (huncut : ∀ piece ∈ pieces, ¬ [':', ':'] <:+: piece)
    (hlast : ∀ piece, piece ++ [':'] ∉ pieces.dropLast) :
    splitSegments ([':', ':'].intercalate pieces) = pieces := by
  induction pieces with
  | nil => exact absurd rfl hne
  | cons piece pieces ih =>
    rw [List.forall_mem_cons] at huncut
    by_cases hmore : pieces = []
    · rw [hmore, List.intercalate_singleton]
      exact splitSegments_of_uncut huncut.1
    · rw [List.dropLast_cons_of_ne_nil hmore] at hlast
      have hfirst : ∀ body, piece ≠ body ++ [':'] := fun body hbody =>
        hlast body (hbody ▸ List.mem_cons_self)
      rw [List.intercalate_cons_of_ne_nil hmore, List.append_assoc]
      refine (splitSegments_append huncut.1 hfirst).trans (congrArg (piece :: ·) ?_)
      exact ih hmore huncut.2 fun body hbody => hlast body (List.mem_cons_of_mem _ hbody)

/-- With one more separator in front, each piece has its own. -/
theorem separator_append_intercalate (hne : pieces ≠ []) :
    [':', ':'] ++ [':', ':'].intercalate pieces = pieces.flatMap ([':', ':'] ++ ·) := by
  induction pieces with
  | nil => exact absurd rfl hne
  | cons piece pieces ih =>
    by_cases hmore : pieces = []
    · simp [hmore]
    · rw [List.intercalate_cons_of_ne_nil hmore, List.flatMap_cons, ← ih hmore]
      simp

theorem separator_append (cs : List Char) :
    [':', ':'] ++ cs = (splitSegments cs).flatMap ([':', ':'] ++ ·) := by
  rw [← separator_append_intercalate (splitSegments_ne_nil cs), intercalate_splitSegments]

theorem isSuffix_intercalate (before : List (List Char)) (piece : List Char) :
    piece <:+ [':', ':'].intercalate (before ++ [piece]) ∧
      (before ≠ [] → [':', ':'] ++ piece <:+ [':', ':'].intercalate (before ++ [piece])) := by
  induction before with
  | nil => simp
  | cons first before ih =>
    have hne : before ++ [piece] ≠ [] := List.concat_ne_nil _ _
    rw [List.cons_append, List.intercalate_cons_of_ne_nil hne]
    refine ⟨ih.1.trans (List.suffix_append _ _), fun _ => ?_⟩
    by_cases hmore : before = []
    · simp [hmore, List.append_assoc]
    · exact (ih.2 hmore).trans (List.suffix_append _ _)

/-! ## What is printed of a name -/

theorem toList_toString (n : TypeName) :
    n.toString.toList = (if n.absolute then [':', ':'] else []) ++
      [':', ':'].intercalate (n.path.map String.toList) := by
  rw [toString, String.toList_append, String.toList_intercalate]
  cases n.absolute <;> rfl

/-- The segments of a name that has been read are those of the text. -/
theorem segments_of_parse? (h : parse? text = some n) :
    n.path.map String.toList = segments (Text.trim text.toList) ∧
      n.absolute = [':', ':'].isPrefixOf (Text.trim text.toList) := by
  obtain ⟨before, last, hparts, rfl⟩ := exists_segments h
  simp [path, hparts, Function.comp_def]

/-- A name is printed with nothing but what is left of the text that it was read from. -/
theorem toString_sublist (h : parse? text = some n) :
    n.toString.toList.Sublist (Text.trim text.toList) := by
  obtain ⟨hpath, habsolute⟩ := segments_of_parse? h
  generalize Text.trim text.toList = cs at hpath habsolute ⊢
  have hne : segments cs ≠ [] := by simp [← hpath, path]
  rw [toList_toString, hpath]
  split
  · next hpref =>
    rw [habsolute, List.isPrefixOf_iff_prefix] at hpref
    obtain ⟨rest, rfl⟩ := hpref
    have hrest : segments ([':', ':'] ++ rest) = segments rest := rfl
    rw [separator_append_intercalate hne, hrest, separator_append]
    exact List.Sublist.flatMap List.filter_sublist _
  · rw [List.nil_append, ← List.append_sublist_append_left [':', ':'],
      separator_append_intercalate hne, separator_append]
    exact List.Sublist.flatMap List.filter_sublist _

/-- The last segment of a name ends in a blank. -/
def EndsInBlank (n : TypeName) : Prop :=
  ∃ c, n.name.toList.getLast? = some c ∧ Text.isBlank c = true

instance (n : TypeName) : Decidable n.EndsInBlank :=
  decidable_of_iff (n.name.toList.getLast?.any Text.isBlank = true) (by
    simp [EndsInBlank, Option.any_eq_true])

/-- What is printed of a name ends as its last segment does. -/
theorem isSuffix_toString (n : TypeName) : n.name.toList <:+ n.toString.toList := by
  rw [toList_toString, path, List.map_append]
  exact (isSuffix_intercalate _ _).1.trans (List.suffix_append _ _)

theorem getLast?_toString (hname : n.name ≠ "") :
    n.toString.toList.getLast? = n.name.toList.getLast? := by
  obtain ⟨front, hfront⟩ := isSuffix_toString n
  rw [← hfront]
  apply List.getLast?_append_of_ne_nil
  exact fun h => hname (String.toList_eq_nil_iff.mp h)

/-- What is printed of a name with a blank at the end is read as a shorter one. -/
theorem parse?_toString_ne (h : n.EndsInBlank) : parse? n.toString ≠ some n := by
  intro hread
  obtain ⟨c, hlast, hc⟩ := h
  have hname : n.name ≠ "" := by
    intro hempty
    simp [hempty] at hlast
  have hle := (toString_sublist hread).length_le
  have hlt := Text.length_trim_lt ((getLast?_toString hname).trans hlast) hc
  omega

/-- A name with a blank at the end is read only from a text that goes on with a separator. -/
theorem isSuffix_of_endsInBlank (h : parse? text = some n) (hb : n.EndsInBlank) :
    [':', ':'] <:+ Text.trim text.toList := by
  obtain ⟨hpath, -⟩ := segments_of_parse? h
  obtain ⟨c, hlast, hc⟩ := hb
  rcases (splitSegments (Text.trim text.toList)).eq_nil_or_concat with hnil | ⟨front, final, hsplit⟩
  · exact absurd hnil (splitSegments_ne_nil _)
  rw [List.concat_eq_append] at hsplit
  have hends := isSuffix_intercalate front final
  rw [← hsplit, intercalate_splitSegments] at hends
  rw [path, List.map_append, segments, hsplit, List.filter_append] at hpath
  by_cases hfinal : final = []
  · subst hfinal
    apply hends.2
    rintro rfl
    simp at hpath
  · -- The last piece is the last segment, and the text ends as it does.
    rw [List.filter_singleton, decide_eq_true hfinal, cond_true] at hpath
    obtain ⟨rfl, -⟩ := List.cons.inj (List.append_inj' hpath rfl).2
    obtain ⟨start, hstart⟩ := hends.1
    have htext : (Text.trim text.toList).getLast? = some c := by
      rw [← hstart, List.getLast?_append_of_ne_nil _ hfinal, hlast]
    rw [Text.isBlank_of_getLast?_trim htext] at hc
    exact absurd hc Bool.false_ne_true

/-! ## Reading it back -/

/-- What is printed of a name can be read back. -/
structure Legible (n : TypeName) : Prop where
  segment : ∀ s ∈ n.path, Segment s
  /-- A separator is not taken to start with the end of a segment. -/
  uncolon : ∀ s, s ++ ":" ∉ n.scope
  first : n.absolute = false → ∀ c, n.toString.toList.head? = some c → Text.isBlank c = false
  last : ¬ n.EndsInBlank

namespace Legible

theorem splitSegments_path (h : n.Legible) :
    splitSegments ([':', ':'].intercalate (n.path.map String.toList)) =
      n.path.map String.toList := by
  have hscope : (n.path.map String.toList).dropLast = n.scope.map String.toList := by
    rw [path, List.map_append, List.map_singleton, List.dropLast_concat]
  apply splitSegments_intercalate
  · simp [path]
  · intro piece hpiece
    obtain ⟨s, hs, rfl⟩ := List.mem_map.mp hpiece
    exact (h.segment s hs).uncut
  · intro piece hpiece
    rw [hscope] at hpiece
    obtain ⟨s, hs, heq⟩ := List.mem_map.mp hpiece
    apply h.uncolon (String.ofList piece)
    have hs' : String.ofList piece ++ ":" = s := by
      rw [← String.toList_inj, heq, String.toList_append, String.toList_ofList]
      rfl
    rwa [hs']

theorem nil_not_mem (h : n.Legible) : [] ∉ n.path.map String.toList := by
  intro hnil
  obtain ⟨s, hs, hempty⟩ := List.mem_map.mp hnil
  exact (h.segment s hs).ne_empty (String.toList_eq_nil_iff.mp hempty)

theorem segments_toString (h : n.Legible) :
    segments n.toString.toList = n.path.map String.toList := by
  have hpath : segments ([':', ':'].intercalate (n.path.map String.toList)) =
      n.path.map String.toList := by
    rw [segments, h.splitSegments_path, List.filter_eq_self]
    intro piece hpiece
    rw [decide_eq_true_eq]
    rintro rfl
    exact h.nil_not_mem hpiece
  rw [toList_toString]
  split
  · exact hpath
  · exact hpath

theorem isPrefixOf_toString (h : n.Legible) :
    [':', ':'].isPrefixOf n.toString.toList = n.absolute := by
  rw [toList_toString]
  cases n.absolute with
  | true => rfl
  | false =>
    rw [if_neg Bool.false_ne_true, List.nil_append, Bool.eq_false_iff, Ne,
      List.isPrefixOf_iff_prefix]
    rintro ⟨rest, hrest⟩
    have hsplit := h.splitSegments_path
    rw [← hrest] at hsplit
    exact h.nil_not_mem (hsplit ▸ List.mem_cons_self)

theorem trim_toString (h : n.Legible) : Text.trim n.toString.toList = n.toString.toList := by
  have hname : n.name ≠ "" :=
    (h.segment n.name (List.mem_append_right _ List.mem_cons_self)).ne_empty
  apply Text.trim_eq_self
  · intro c hc
    cases habsolute : n.absolute with
    | true =>
      rw [toList_toString, habsolute] at hc
      cases hc
      decide
    | false => exact h.first habsolute c hc
  · intro c hc
    rw [getLast?_toString hname] at hc
    rw [← Bool.not_eq_true]
    exact fun hblank => h.last ⟨c, hc, hblank⟩

theorem parse?_toString (h : n.Legible) : parse? n.toString = some n := by
  rw [parse?, ofChars?, h.trim_toString, h.segments_toString, h.isPrefixOf_toString]
  simp [path, Function.comp_def]

theorem toAbsolute (h : n.Legible) : n.toAbsolute.Legible where
  segment := h.segment
  uncolon := h.uncolon
  first := fun hrelative => absurd hrelative.symm Bool.false_ne_true
  last := h.last

end Legible

/-- A relative name is printed from the same character on that the text started with. -/
theorem head?_toString (h : parse? text = some n) (hrelative : n.absolute = false) :
    n.toString.toList.head? = (Text.trim text.toList).head? := by
  obtain ⟨hpath, habsolute⟩ := segments_of_parse? h
  generalize Text.trim text.toList = cs at hpath habsolute ⊢
  rw [hrelative] at habsolute
  obtain ⟨first, more, hpieces⟩ := List.exists_cons_of_ne_nil (splitSegments_ne_nil cs)
  have hne : first ≠ [] := by
    rintro rfl
    cases more with
    | nil => simp [segments, hpieces, path] at hpath
    | cons second more =>
      rw [← intercalate_splitSegments cs, hpieces, List.intercalate_cons_cons] at habsolute
      cases habsolute
  have hsegments : segments cs = first :: more.filter (· ≠ []) := by
    rw [segments, hpieces, List.filter_cons_of_pos (by simpa using hne)]
  obtain ⟨rest, hrest⟩ := isPrefix_of_splitSegments hpieces
  obtain ⟨tail, htail⟩ : first <+: [':', ':'].intercalate (segments cs) := by
    rw [hsegments]
    cases more.filter (· ≠ []) with
    | nil => simp
    | cons second more =>
      rw [List.intercalate_cons_cons, List.append_assoc]
      exact List.prefix_append _ _
  rw [toList_toString, hpath, hrelative, if_neg Bool.false_ne_true, List.nil_append, ← htail,
    ← hrest, List.head?_append_of_ne_nil _ hne, List.head?_append_of_ne_nil _ hne]

/-- A name that has been read can be read again, unless a blank has come to its end. -/
theorem legible_of_parse? (h : parse? text = some n) (hb : ¬ n.EndsInBlank) : n.Legible where
  segment := fun _ => segment_of_mem_path h
  uncolon := append_colon_not_mem_scope h
  first := fun hrelative _ hc => Text.isBlank_of_head?_trim (head?_toString h hrelative ▸ hc)
  last := hb

end TypeName

namespace Definitions.Document

open TypeAlias.TypeName

variable {d : Document} {env : Environment} {n : TypeName}

/-- What is printed of an alias can be read back when no segment of its namespace ends in a colon
and its last segment does not end in a blank. -/
theorem legible_of_mem (h : d.toEnvironment = .ok env) (hn : n ∈ env.aliasNames)
    (hscope : ∀ s, s ++ ":" ∉ n.scope) (hb : ¬ n.EndsInBlank) : n.Legible where
  segment := segment_of_mem h hn
  uncolon := hscope
  first := fun hrelative => by
    rw [absolute_of_mem h hn] at hrelative
    exact absurd hrelative.symm Bool.false_ne_true
  last := hb

theorem parse?_toString_iff (h : d.toEnvironment = .ok env) (hn : n ∈ env.aliasNames) :
    parse? n.toString = some n ↔ (∀ s, s ++ ":" ∉ n.scope) ∧ ¬ n.EndsInBlank := by
  constructor
  · exact fun hread =>
      ⟨append_colon_not_mem_scope hread, fun hb => parse?_toString_ne hb hread⟩
  · exact fun hlegible => (legible_of_mem h hn hlegible.1 hlegible.2).parse?_toString

end Definitions.Document

namespace TypeName

/-- A name that has been read from a text is read again from what is printed of it, relative or at
the top level, just when its last segment does not end in a blank; it does so only where the text
goes on with a separator. What is printed of an alias is read as its name just when, besides, no
segment of its namespace ends in a colon, and then it stands for the same alias. -/
theorem read_back (text : String) (n : TypeName) (h : parse? text = some n) :
    (parse? n.toString = some n ↔ ¬ n.EndsInBlank) ∧
    (parse? n.toAbsolute.toString = some n.toAbsolute ↔ ¬ n.EndsInBlank) ∧
    (n.EndsInBlank → [':', ':'] <:+ Text.trim text.toList) ∧
    ∀ (d : Definitions.Document) env, d.toEnvironment = .ok env → ∀ a ∈ env.aliasNames,
      (parse? a.toString = some a ↔ (∀ s, s ++ ":" ∉ a.scope) ∧ ¬ a.EndsInBlank) ∧
      (parse? a.toString = some a → (GivenName.text a.toString).alias? env = some a) := by
  refine ⟨⟨fun hread hb => parse?_toString_ne hb hread, fun hb => ?_⟩,
    ⟨fun hread hb => parse?_toString_ne (n := n.toAbsolute) hb hread, fun hb => ?_⟩,
    isSuffix_of_endsInBlank h, fun d env henv a ha => ?_⟩
  · exact (legible_of_parse? h hb).parse?_toString
  · exact (legible_of_parse? h hb).toAbsolute.parse?_toString
  · refine ⟨Definitions.Document.parse?_toString_iff henv ha, fun hread => ?_⟩
    have hkeyed : env.WellKeyed := (Environment.reachable_build henv).wellKeyed
    rw [GivenName.alias?, hread, Option.bind_some, hkeyed.normalize ha []]
    rfl

/-- Two aliases whose names are written with a separator at the end, one of them with a blank in
front of it. -/
def trailing : Data.Part :=
  .ofValue (.object [
    ("module_aliases", .list [.object [("name", .str "M"), ("target", .str "A ::")]]),
    ("aliases", .list [
      .object [("name", .str "M:::b c::d:: "), ("type", .object [("kind", .str "base"),
        ("name", .str "nil")])],
      .object [("name", .str "::e ::"), ("type", .object [("kind", .str "base"),
        ("name", .str "nil")])]])])

theorem read_back_trailing :
    (∃ n, parse? "M:::b c::d:: " = some n ∧ parse? n.toString = some n ∧
      parse? n.toAbsolute.toString = some n.toAbsolute) ∧
    ∃ d env, Definitions.Document.ofPart trailing = .ok d ∧ d.toEnvironment = .ok env ∧
      ∃ n ∈ env.aliasNames, n.toString = "::A :::b c::d" ∧ parse? n.toString = some n ∧
        (GivenName.text n.toString).alias? env = some n := by
  obtain ⟨hrelative, habsolute, -, haliases⟩ :=
    read_back "M:::b c::d:: " ⟨"d", ["M", ":b c"], false⟩ rfl
  constructor
  · exact ⟨_, rfl, hrelative.mpr (by decide), habsolute.mpr (by decide)⟩
  · obtain ⟨d, env, hd, henv, hmem⟩ : ∃ d env, Definitions.Document.ofPart trailing = .ok d ∧
        d.toEnvironment = .ok env ∧ ⟨"d", ["A ", ":b c"], true⟩ ∈ env.aliasNames :=
      ⟨_, _, rfl, rfl, List.mem_cons_self⟩
    obtain ⟨hread, hstands⟩ := haliases d env henv _ hmem
    have hparse : parse? "A :::b c::d" = some ⟨"d", ["A ", ":b c"], false⟩ := rfl
    have hscope : ∀ s, s ++ ":" ∉ ["A ", ":b c"] := append_colon_not_mem_scope hparse
    have hback := hread.mpr ⟨hscope, by decide⟩
    exact ⟨d, env, hd, henv, _, hmem, rfl, hback, hstands hback⟩

/-- A name with a blank at the end is not read back, and an alias of such a name cannot be asked for
by what is printed of it. -/
theorem not_read_back_trailing :
    (∃ n, parse? "a ::" = some n ∧ parse? n.toString ≠ some n ∧
      parse? n.toAbsolute.toString ≠ some n.toAbsolute) ∧
    ∃ d env, Definitions.Document.ofPart trailing = .ok d ∧ d.toEnvironment = .ok env ∧
      ∃ n ∈ env.aliasNames, n.toString = "::e " ∧
        (GivenName.text n.toString).alias? env = none := by
  constructor
  · exact ⟨⟨"a ", [], false⟩, rfl, by decide, by decide⟩
  · exact ⟨_, _, rfl, rfl, ⟨"e ", [], true⟩, List.mem_cons_of_mem _ List.mem_cons_self, rfl, rfl⟩

end TypeName

end TypeAlias
