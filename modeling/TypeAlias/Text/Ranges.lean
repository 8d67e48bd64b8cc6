/-!
# Ranges of code points

Properties of characters are given as lists of closed ranges of code points.
-/

namespace TypeAlias.Text

/-- Whether a code point lies in one of the ranges. -/
def inRanges (ranges : List (Nat × Nat)) (n : Nat) : Bool :=
  ranges.any fun r => r.1 ≤ n && n ≤ r.2

/-- Whether a code point lies in one of the ranges at an even distance from its start. -/
def inAlternations (ranges : List (Nat × Nat)) (n : Nat) : Bool :=
  ranges.any fun r => r.1 ≤ n && n ≤ r.2 && (n - r.1) % 2 == 0

end TypeAlias.Text
