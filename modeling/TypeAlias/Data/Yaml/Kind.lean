import TypeAlias.Data.Json.Reader

/-!
# Kinds of nodes

A tag tells of which kind a node is. The text of a plain scalar without a tag tells it too: nothing,
a truth value, an integer, a number with a point, a time, a sign, or else a text.
-/

namespace TypeAlias.Data.Yaml

/-- The kinds of nodes. -/
inductive Kind where
  | null
  | bool
  | int
  | float
  | binary
  | timestamp
  | str
  | seq
  | map
  | set
  /-- An ordered mapping. -/
  | omap
  /-- Pairs, of which several may have the same key. -/
  | pairs
  /-- The key that asks to merge other mappings into its own. -/
  | merge
  /-- The key of the scalar that a mapping can stand for. -/
  | value
  /-- Nothing is known about the kind. -/
  | unknown
  deriving DecidableEq

namespace Kind

/-- What the tags of the standard kinds begin with. -/
def standardTag : String :=
  "tag:yaml.org,2002:"

/-- The standard kinds by their names. -/
def names : List (String × Kind) :=
  [("null", null), ("bool", bool), ("int", int), ("float", float), ("binary", binary),
    ("timestamp", timestamp), ("str", str), ("seq", seq), ("map", map), ("set", set),
    ("omap", omap), ("pairs", pairs), ("merge", merge), ("value", value)]

/-- The kind of nodes with a tag. -/
def ofTag (tag : String) : Kind :=
  if standardTag.isPrefixOf tag then
    (names.lookup (String.ofList (tag.toList.drop standardTag.length))).getD unknown
  else unknown

end Kind

/-! ## Forms of plain scalars -/

/-- The words for nothing. -/
def nullWords : List String :=
  ["", "~", "null", "Null", "NULL"]

/-- The words for truth values, in lower case. -/
def boolWords : List (String × Bool) :=
  [("yes", true), ("no", false), ("true", true), ("false", false), ("on", true), ("off", false)]

/-- The ways to write a word: in lower case, with a capital, and in upper case. -/
def spellings (word : String) : List String :=
  [word, word.capitalize, word.map Char.toUpper]

/-- Whether there are characters and all have a property. -/
def allOf (p : Char → Bool) (cs : List Char) : Bool :=
  !cs.isEmpty && cs.all p

/-- Whether a character is a digit of a base up to ten, or an underscore. -/
def isDigitOrMark (base : Nat) (c : Char) : Bool :=
  (c.isDigit && c.toNat < '0'.toNat + base) || c = '_'

/-- Characters without a sign in front. -/
def withoutSign (cs : List Char) : List Char :=
  (Text.splitSign cs).2

/-- Whether a text is one or two digits below sixty. -/
def isSexagesimal (cs : List Char) : Bool :=
  match cs with
  | [d] => d.isDigit
  | [t, d] => t.isDigit && t.toNat < '6'.toNat && d.isDigit
  | _ => false

/-- Whether a text is digits and underscores that start with a digit. -/
def startsWithDigit (cs : List Char) : Bool :=
  cs.head?.any Char.isDigit && cs.all (isDigitOrMark 10)

/-- Whether a text has the form of an integer. -/
def isInteger (cs : List Char) : Bool :=
  match withoutSign cs with
  | '0' :: 'b' :: ds => allOf (isDigitOrMark 2) ds
  | '0' :: 'x' :: ds => allOf (fun c => (Text.hexDigit? c).isSome || c = '_') ds
  | '0' :: ds => ds.all (isDigitOrMark 8)
  | unsigned =>
    match unsigned.splitOn ':' with
    | first :: others => startsWithDigit first && others.all isSexagesimal
    | [] => false

/-- Whether a text has the form of an exponent, in which the sign must be written, or is empty. -/
def isExponent (cs : List Char) : Bool :=
  match cs with
  | [] => true
  | e :: sign :: ds =>
    (e = 'e' || e = 'E') && (sign = '-' || sign = '+') && allOf Char.isDigit ds
  | _ => false

/-- Whether a text has the form of a number with a point. -/
def isDecimal (cs : List Char) : Bool :=
  let unsigned := withoutSign cs
  let signed := unsigned.length < cs.length
  match unsigned.span (· ≠ '.') with
  | (_, []) => false
  | ([], _ :: after) =>
    let word := String.ofList after
    ["inf", "Inf", "INF"].contains word ||
      (!signed &&
        (["nan", "NaN", "NAN"].contains word ||
          (after.head?.any Char.isDigit && isExponent (after.dropWhile (isDigitOrMark 10)))))
  | (whole, _ :: after) =>
    match whole.splitOn ':' with
    | [ds] => startsWithDigit ds && isExponent (after.dropWhile (isDigitOrMark 10))
    | first :: others =>
      startsWithDigit first && others.all isSexagesimal && after.all (isDigitOrMark 10)
    | [] => false

/-! ## Times -/

/-- Numbers for a time of a day. -/
structure Clock where
  hour : Nat
  minute : Nat
  second : Nat
  microsecond : Nat
  /-- The minutes by which the zone is ahead, if there is one. -/
  zone : Option Int

/-- Numbers for a day, and for a time of that day if one is given. -/
structure Moment where
  year : Nat
  month : Nat
  day : Nat
  clock : Option Clock

/-- Takes a number with a number of digits within bounds. -/
def takeNumber? (least most : Nat) (cs : List Char) : Option (Nat × List Char) :=
  let ds := (cs.take most).takeWhile Char.isDigit
  if least ≤ ds.length then some (Json.decimalValue ds, cs.drop ds.length) else none

/-- Takes a number behind a given character. -/
def takeNumberAfter? (c : Char) (least most : Nat) : List Char → Option (Nat × List Char)
  | a :: cs => if a = c then takeNumber? least most cs else none
  | [] => none

/-- Whether a character is a space or a tabulator. -/
def isGap (c : Char) : Bool :=
  c = ' ' || c = '\t'

/-- Reads the zone at the end of a time: whether there is one, by how many minutes it is ahead. -/
def zone? (cs : List Char) : Option (Option Int) :=
  match cs.dropWhile isGap with
  | ['Z'] => some (some 0)
  | sign :: zone =>
    if sign = '+' || sign = '-' then do
      let (hours, rest) ← takeNumber? 1 2 zone
      let (minutes, rest) ← if rest.isEmpty then some (0, []) else takeNumberAfter? ':' 2 2 rest
      let ahead : Int := 60 * hours + minutes
      if rest.isEmpty then return some (if sign = '-' then -ahead else ahead) else none
    else none
  | [] => if cs.isEmpty then some none else none

/-- Takes the fraction of a second in a time, in whole microseconds. -/
def takeFraction (cs : List Char) : Nat × List Char :=
  match cs with
  | '.' :: rest =>
    let ds := (rest.takeWhile Char.isDigit).take 6
    (Json.decimalValue (ds ++ List.replicate (6 - ds.length) '0'), rest.dropWhile Char.isDigit)
  | _ => (0, cs)

/-- Reads the time of a day behind its date. -/
def clock? (cs : List Char) : Option Clock := do
  let cs ←
    match cs with
    | c :: rest =>
      if isGap c then some (rest.dropWhile isGap)
      else if c = 'T' || c = 't' then some rest
      else none
    | [] => none
  let (hour, cs) ← takeNumber? 1 2 cs
  let (minute, cs) ← takeNumberAfter? ':' 2 2 cs
  let (second, cs) ← takeNumberAfter? ':' 2 2 cs
  let (microsecond, cs) := takeFraction cs
  return { hour, minute, second, microsecond, zone := ← zone? cs }

/-- The day, or the time of a day, that a text gives. -/
def moment? (cs : List Char) : Option Moment := do
  let (year, cs) ← takeNumber? 4 4 cs
  let (month, cs) ← takeNumberAfter? '-' 1 2 cs
  let (day, cs) ← takeNumberAfter? '-' 1 2 cs
  if cs.isEmpty then return { year, month, day, clock := none }
  else return { year, month, day, clock := some (← clock? cs) }

/-- Whether a text has the form of a time. A day alone is written with two digits for the month and
two for the day. -/
def isMoment (cs : List Char) : Bool :=
  match moment? cs with
  | some m => m.clock.isSome || cs.length = 10
  | none => false

/-! ## The kind of a plain scalar -/

/-- A text without a line end that ends it. -/
def withoutLastBreak (cs : List Char) : List Char :=
  if 1 < cs.length ∧ cs.getLast? = some '\n' then cs.dropLast else cs

/-- The kind of a scalar that its text tells. A line end at its end does not count. -/
def Kind.ofText (text : String) : Kind :=
  let cs := withoutLastBreak text.toList
  let word := String.ofList cs
  if nullWords.contains word then null
  else if boolWords.any fun w => (spellings w.1).contains word then bool
  else if isDecimal cs then float
  else if isInteger cs then int
  else if isMoment cs then timestamp
  else if word = "<<" then merge
  else if word = "=" then value
  else if word = "!" ∨ word = "&" ∨ word = "*" then unknown
  else str

end TypeAlias.Data.Yaml
