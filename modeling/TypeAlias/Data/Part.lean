import TypeAlias.Data.Value

/-!
# Parts of data documents

A document may hold one part in several places, and a part may hold itself. So the parts of a
document are numbered, and what a part holds is told by numbers.
-/

namespace TypeAlias.Data

/-- What a part of a document is; `π` stands for the parts that it holds. -/
inductive Content (π : Type) where
  | scalar (s : Scalar)
  | list (items : List π)
  /-- Distinct members without an order of their own. -/
  | set (members : List π)
  | map (entries : List (Scalar × π))
  | pair (first second : π)
  deriving DecidableEq

namespace Content

variable {π ρ : Type}

/-- The same content with other parts. -/
def mapParts (f : π → ρ) : Content π → Content ρ
  | scalar s => scalar s
  | list items => list (items.map f)
  | set members => set (members.map f)
  | map entries => map (entries.map fun e => (e.1, f e.2))
  | pair first second => pair (f first) (f second)

/-- The parts that a part holds. -/
def parts : Content π → List π
  | scalar _ => []
  | list items => items
  | set members => members
  | map entries => entries.map Prod.snd
  | pair first second => [first, second]

end Content

/-- The number of places among which integers of a set are spread out: the least power of two above
twice their number, and at least 8. -/
def setPlaces (count : Nat) : Nat :=
  if count ≤ 4 then 8 else Nat.pow 2 (Nat.log2 (2 * count) + 1)

/-- The members of a set in the order in which they are listed: integers by the places to which
they are spread out, and otherwise as they came. -/
def setOrder {α : Type} (members : List (Scalar × α)) : List (Scalar × α) :=
  let places := (setPlaces members.length : Int)
  match members.mapM fun m => match m.1 with | .int i => some (i % places, m) | _ => none with
  | some placed => (placed.mergeSort fun a b => decide (a.1 ≤ b.1)).map Prod.snd
  | none => members

/-- The parts of a document by their numbers. -/
abbrev Parts := Array (Content Nat)

namespace Parts

mutual

/-- Adds the parts of a value, and tells the number of the whole. -/
def add : Value → Parts → Nat × Parts
  | .scalar s, ps => (ps.size, ps.push (.scalar s))
  | .list items, ps =>
    let (numbers, ps) := addItems items ps
    (ps.size, ps.push (.list numbers))
  | .map entries, ps =>
    let (numbers, ps) := addEntries entries ps
    (ps.size, ps.push (.map numbers))

/-- Adds the items of a list. -/
def addItems : List Value → Parts → List Nat × Parts
  | [], ps => ([], ps)
  | v :: rest, ps =>
    let (n, ps) := add v ps
    let (ns, ps) := addItems rest ps
    (n :: ns, ps)

/-- Adds the values of a mapping. -/
def addEntries : List (Scalar × Value) → Parts → List (Scalar × Nat) × Parts
  | [], ps => ([], ps)
  | (k, v) :: rest, ps =>
    let (n, ps) := add v ps
    let (ns, ps) := addEntries rest ps
    ((k, n) :: ns, ps)

end

end Parts

/-- A part among all parts of a document. -/
structure Part where
  parts : Parts
  number : Nat
  deriving DecidableEq

namespace Part

/-- What a part is. -/
def content (p : Part) : Content Part :=
  (p.parts[p.number]?.getD (.scalar .null)).mapParts fun n => { p with number := n }

/-- The only part of a document that is a scalar. -/
def ofScalar (s : Scalar) : Part where
  parts := #[.scalar s]
  number := 0

/-- The whole of a value. -/
def ofValue (v : Value) : Part :=
  let (number, parts) := Parts.add v #[]
  { parts, number }

/-- How a part is shown inside of parts with given numbers, to a given depth. A part that is met
again inside of itself is not shown again. -/
def shownInside : Nat → List Nat → Part → String
  | 0, _, _ => "..."
  | depth + 1, around, p =>
    let again := around.contains p.number
    let inner (q : Part) : String := shownInside depth (p.number :: around) q
    let row (qs : List Part) : String := ", ".intercalate (qs.map inner)
    match p.content with
    | .scalar s => s.shown
    | .list items => "[" ++ (if again then "..." else row items) ++ "]"
    | .set [] => "set()"
    | .set members => "\x7b" ++ row members ++ "\x7d"
    | .map entries =>
      let entry (e : Scalar × Part) : String := e.1.shown ++ ": " ++ inner e.2
      "\x7b" ++ (if again then "..." else ", ".intercalate (entries.map entry)) ++ "\x7d"
    | .pair first second => "(" ++ (if again then "..." else row [first, second]) ++ ")"

/-- How a part is shown by itself. The parts around another one are distinct, so their number bounds
the depth. -/
def text (p : Part) : String :=
  match p.content with
  | .scalar s => s.text
  | _ => shownInside (p.parts.size + 2) [] p

/-- Whether no number among the parts that some parts hold is infinite or no number at all. `seen`
are the numbers of parts that have been looked at. -/
def areFinite : Nat → List Nat → List Part → Bool
  | 0, _, _ => true
  | _, _, [] => true
  | fuel + 1, seen, p :: rest =>
    if seen.contains p.number then areFinite fuel seen rest
    else
      match p.content with
      | .scalar (.float .nan) | .scalar (.float (.infinite _)) => false
      | c => areFinite fuel (p.number :: seen) (c.parts ++ rest)

/-- Whether every number in a part is finite. Each part is looked into once and is held as often as
the sizes of the parts say. -/
def isFinite (p : Part) : Bool :=
  areFinite (p.parts.foldl (fun n c => n + c.parts.length) p.parts.size + 1) [] [p]

end Part

end TypeAlias.Data
