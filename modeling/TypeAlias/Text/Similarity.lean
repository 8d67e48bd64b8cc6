/-!
# Similar texts

How similar two texts are is told by the characters that they have in common: those of a longest
block of characters that stands in both, and those that the texts have in common before it and
after it. A mistyped word is like a known one when at least six tenths of the characters of both
are common to them.
-/

namespace TypeAlias.Text

/-- The number of characters at the start of both texts that are the same. -/
def commonStart : List Char → List Char → Nat
  | a :: as, b :: bs => if a = b then commonStart as bs + 1 else 0
  | _, _ => 0

/-- A block of characters that stands in two texts. -/
structure CommonBlock where
  /-- Where it begins in the first text. -/
  first : Nat
  /-- Where it begins in the second text. -/
  second : Nat
  length : Nat

/-- The longest common block, of several the one that begins first in the first text, and of several
of those the one that begins first in the second text. -/
def longestBlock (as bs : List Char) : CommonBlock :=
  (List.range as.length).foldl (fun best i =>
    (List.range bs.length).foldl (fun best j =>
      let n := commonStart (as.drop i) (bs.drop j)
      if best.length < n then ⟨i, j, n⟩ else best) best) ⟨0, 0, 0⟩

/-- The number of characters that two texts have in common, of which the first has at most a given
length. -/
def commonWithin : Nat → List Char → List Char → Nat
  | 0, _, _ => 0
  | size + 1, as, bs =>
    let block := longestBlock as bs
    if block.length = 0 then 0
    else
      block.length + commonWithin size (as.take block.first) (bs.take block.second) +
        commonWithin size (as.drop (block.first + block.length))
          (bs.drop (block.second + block.length))

/-- The number of characters that two texts have in common. -/
def commonCount (as bs : List Char) : Nat :=
  commonWithin as.length as bs

/-- A known word and how similar another one is to it. -/
structure Likeness where
  word : String
  common : Nat
  /-- The number of characters of both. -/
  total : Nat

namespace Likeness

/-- How similar a word is to a known one. -/
def of (word known : String) : Likeness where
  word := known
  common := commonCount known.toList word.toList
  total := known.length + word.length

/-- Whether two words are alike. -/
def isClose (l : Likeness) : Bool :=
  6 * l.total ≤ 20 * l.common

/-- Whether a known word comes before another one: the more similar one, of equally similar ones the
later in the alphabet. -/
def precedes (a b : Likeness) : Bool :=
  b.common * a.total < a.common * b.total ||
    (a.common * b.total = b.common * a.total && decide (b.word ≤ a.word))

end Likeness

/-- The known words that a word is like, at most three of them, in alphabetical order. -/
def similarWords (word : String) (known : List String) : List String :=
  let close := (known.map (Likeness.of word)).filter Likeness.isClose
  let best := (close.mergeSort Likeness.precedes).take 3
  (best.map Likeness.word).mergeSort fun a b => decide (a ≤ b)

end TypeAlias.Text
