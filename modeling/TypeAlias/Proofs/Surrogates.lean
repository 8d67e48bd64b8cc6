import TypeAlias.Data.Json.Printer

/-!
# Texts without surrogates

A text that is put together from others holds a lone surrogate just when one of them does. Numbers
hold none, and neither does what is printed as JSON, where everything but ASCII is escaped.
-/

namespace TypeAlias

namespace Text

@[simp]
theorem hasSurrogate_append (s t : String) :
    hasSurrogate (s ++ t) = (hasSurrogate s || hasSurrogate t) := by
  simp [hasSurrogate]

theorem hasSurrogate_ofList (cs : List Char) :
    hasSurrogate (String.ofList cs) = cs.any isStandIn := by
  simp [hasSurrogate]

/-- The digits of a number are no stand-ins. -/
theorem any_isStandIn_toDigits {b : Nat} (hb : 1 < b) (hb' : b ≤ 16) (n : Nat) :
    (Nat.toDigits b n).any isStandIn = false := by
  have hdigit : ∀ d < 16, isStandIn d.digitChar = false := by decide
  induction n using Nat.strongRecOn with
  | ind n ih =>
    by_cases hn : n < b
    · simp [Nat.toDigits_of_lt_base hn, hdigit n (by omega)]
    · have hlt : n / b < n := Nat.div_lt_self (by omega) hb
      have hmod : n % b < 16 := Nat.lt_of_lt_of_le (Nat.mod_lt n (by omega)) hb'
      simp [Nat.toDigits_of_base_le hb (Nat.le_of_not_lt hn), ih _ hlt, hdigit _ hmod]

@[simp]
theorem hasSurrogate_toString (n : Nat) : hasSurrogate (toString n) = false := by
  rw [show toString n = String.ofList (Nat.toDigits 10 n) from rfl, hasSurrogate_ofList]
  exact any_isStandIn_toDigits (by decide) (by decide) n

@[simp]
theorem hasSurrogate_toString_int (n : Int) : hasSurrogate (toString n) = false := by
  cases n with
  | ofNat n => exact hasSurrogate_toString n
  | negSucc n =>
    rw [show toString (Int.negSucc n) = "-" ++ toString (n + 1) from rfl, hasSurrogate_append,
      hasSurrogate_toString]
    rfl

theorem any_isStandIn_replicate (n : Nat) {c : Char} (hc : isStandIn c = false) :
    (List.replicate n c).any isStandIn = false := by
  simp [List.any_replicate, hc]

theorem any_isStandIn_hexDigits (width n : Nat) : (hexDigits width n).any isStandIn = false := by
  unfold hexDigits
  rw [List.any_append, any_isStandIn_toDigits (by decide) (by decide),
    any_isStandIn_replicate _ (by decide)]
  rfl

/-- A part of characters holds no stand-in if the whole holds none. -/
theorem any_isStandIn_of_subset {cs ds : List Char} (h : cs ⊆ ds) (hds : ds.any isStandIn = false) :
    cs.any isStandIn = false := by
  rw [List.any_eq_false] at hds ⊢
  exact fun c hc => hds c (h hc)

end Text

namespace Data

open Text

namespace Binary64

theorem hasSurrogate_decimalText (digits : Nat) (unit : Int) :
    hasSurrogate (decimalText digits unit) = false := by
  have hall := any_isStandIn_toDigits (b := 10) (by decide) (by decide) digits
  have hzeros (n : Nat) := any_isStandIn_replicate n (c := '0') (by decide)
  unfold decimalText
  extract_lets all lead kept size size' fraction whole padded fraction'
  have hkept : kept.any isStandIn = false :=
    any_isStandIn_of_subset (fun c hc => by
      simpa using (List.dropWhile_sublist _).subset (List.mem_reverse.mp hc)) hall
  have hsize : size'.any isStandIn = false := by
    rw [List.any_append, hzeros, any_isStandIn_toDigits (by decide) (by decide)]
    rfl
  have hpadded : padded.any isStandIn = false := by
    rw [List.any_append, hzeros, hkept]
    rfl
  have hsign : isStandIn (if lead < 0 then '-' else '+') = false := by
    split <;> decide
  have hmarks : ['0', '.', 'e'].any isStandIn = false := by decide
  have htake (n : Nat) {cs : List Char} (h : cs.any isStandIn = false) :=
    any_isStandIn_of_subset (List.take_subset n cs) h
  have hdrop (n : Nat) {cs : List Char} (h : cs.any isStandIn = false) :=
    any_isStandIn_of_subset (List.drop_subset n cs) h
  simp only [List.any_cons, List.any_nil, Bool.or_false, Bool.or_eq_false_iff] at hmarks
  split
  · have hfraction : fraction.any isStandIn = false := by
      unfold fraction
      split
      · rfl
      · rw [List.any_cons, hmarks.2.1, hdrop 1 hkept]
        rfl
    rw [hasSurrogate_ofList]
    simp [htake 1 hkept, hfraction, hsign, hsize, hmarks]
  · split
    · rw [hasSurrogate_ofList]
      simp only [List.any_append, List.any_cons, hzeros, hkept, hmarks]
      rfl
    · have hfraction : (if fraction'.isEmpty then ['0'] else fraction').any isStandIn = false := by
        split
        · simp [hmarks]
        · exact hdrop _ hpadded
      rw [hasSurrogate_ofList]
      simp only [List.any_append, List.any_cons, htake whole hpadded, hfraction, hmarks]
      rfl

theorem hasSurrogate_text (x : Binary64) : hasSurrogate x.text = false := by
  cases x with
  | nan => rfl
  | infinite negative => cases negative <;> decide
  | finite negative m e =>
    have hpositive : hasSurrogate (if m = 0 then "0.0"
        else decimalText (shortest m e).1 (shortest m e).2) = false := by
      split
      · decide
      · exact hasSurrogate_decimalText _ _
    cases negative with
    | false => exact hpositive
    | true => exact (hasSurrogate_append _ _).trans (by rw [hpositive]; rfl)

end Binary64

namespace Json

theorem any_isStandIn_escape (c : Char) : (escape c).any isStandIn = false := by
  unfold escape
  split
  any_goals decide
  dsimp only
  split
  · rename_i h
    -- a stand-in represents a surrogate, which is no character of ASCII
    have hc : isStandIn c = false := by
      cases hc : isStandIn c with
      | false => rfl
      | true =>
        rw [codePoint, if_pos hc] at h
        omega
    simp [hc]
  · have hunit (n : Nat) : (unitEscape n).any isStandIn = false := by
      rw [unitEscape, List.any_cons, List.any_cons, any_isStandIn_hexDigits]
      decide
    split
    · exact hunit _
    · rw [List.any_append, hunit, hunit]
      rfl

theorem hasSurrogate_printString (s : String) : hasSurrogate (printString s) = false := by
  have h : hasSurrogate (String.ofList (s.toList.flatMap escape)) = false := by
    simp [hasSurrogate_ofList, List.any_flatMap, any_isStandIn_escape]
  rw [printString, hasSurrogate_append, hasSurrogate_append, h]
  rfl

theorem hasSurrogate_lineStart (layout : Layout) (level : Nat) :
    hasSurrogate (lineStart layout level) = false := by
  cases layout with
  | none => rfl
  | some n =>
    have h := any_isStandIn_replicate (n * level) (c := ' ') (by decide)
    rw [lineStart, hasSurrogate_append, (hasSurrogate_ofList _).trans h]
    rfl

theorem hasSurrogate_separator (layout : Layout) (level : Nat) :
    hasSurrogate (separator layout level) = false := by
  cases layout with
  | none => exact (by decide : hasSurrogate ", " = false)
  | some n =>
    rw [separator, hasSurrogate_append, hasSurrogate_lineStart]
    rfl

theorem hasSurrogate_printScalar (s : Scalar) : hasSurrogate (printScalar s) = false := by
  cases s with
  | null => decide
  | bool b => cases b <;> decide
  | int i => exact hasSurrogate_toString_int i
  | float x =>
    cases x with
    | nan => decide
    | infinite negative => cases negative <;> decide
    | finite negative m e => exact Binary64.hasSurrogate_text _
  | str s => exact hasSurrogate_printString s
  | bytes bs => exact hasSurrogate_printString _
  | date d => exact hasSurrogate_printString _
  | timestamp t => exact hasSurrogate_printString _

theorem hasSurrogate_printKey (s : Scalar) : hasSurrogate (printKey s) = false := by
  cases s with
  | str s => exact hasSurrogate_printString s
  | _ => exact hasSurrogate_printString _

mutual

theorem hasSurrogate_printAt (layout : Layout) (level : Nat) (v : Value) :
    hasSurrogate (printAt layout level v) = false := by
  cases v with
  | scalar s => exact hasSurrogate_printScalar s
  | list items =>
    cases items with
    | nil =>
      rw [printAt]
      decide
    | cons v rest =>
      have h := hasSurrogate_printItems layout (level + 1) (v :: rest)
      simp only [printAt, hasSurrogate_append, hasSurrogate_lineStart, h]
      decide
  | map entries =>
    cases entries with
    | nil =>
      rw [printAt]
      decide
    | cons e rest =>
      have h := hasSurrogate_printEntries layout (level + 1) (e :: rest)
      simp only [printAt, hasSurrogate_append, hasSurrogate_lineStart, h]
      decide

theorem hasSurrogate_printItems (layout : Layout) (level : Nat) (items : List Value) :
    hasSurrogate (printItems layout level items) = false := by
  cases items with
  | nil =>
    rw [printItems]
    decide
  | cons v rest =>
    have hv := hasSurrogate_printAt layout level v
    have hrest := hasSurrogate_printItems layout level rest
    cases rest with
    | nil => exact hv
    | cons w rest => simp [printItems, hasSurrogate_separator, hv, hrest]

theorem hasSurrogate_printEntries (layout : Layout) (level : Nat)
    (entries : List (Scalar × Value)) :
    hasSurrogate (printEntries layout level entries) = false := by
  cases entries with
  | nil =>
    rw [printEntries]
    decide
  | cons e rest =>
    have hv := hasSurrogate_printAt layout level e.2
    have hrest := hasSurrogate_printEntries layout level rest
    cases rest with
    | nil =>
      simp only [printEntries, hasSurrogate_append, hasSurrogate_printKey, hv]
      decide
    | cons w rest =>
      simp only [printEntries, hasSurrogate_append, hasSurrogate_printKey, hasSurrogate_separator,
        hv, hrest]
      decide

end

end Json

end Data

end TypeAlias
