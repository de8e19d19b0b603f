/-!
# Ranges of code points

A property of characters is kept as a list of closed ranges of code points, ascending and apart. A mapping of characters
is kept as a list of runs: every `stride`-th code point of a closed range moves by the same distance.
-/

namespace Treebank.Text

/-- Whether `n` lies in one of the ranges. The ranges ascend, so the search stops at the first that starts above `n`. -/
def inRanges : List (Nat × Nat) → Nat → Bool
  | [], _ => false
  | (low, high) :: rest, n => if n < low then false else if n ≤ high then true else inRanges rest n

/-- A run of code points that a mapping moves together: `low`, `low + stride`, … up to `high` go to `image`,
`image + stride`, …. -/
structure Run where
  low : Nat
  high : Nat
  stride : Nat
  image : Nat

/-- Whether the run moves `n`. -/
def Run.holds (r : Run) (n : Nat) : Bool :=
  decide (r.low ≤ n) && decide (n ≤ r.high) && (n - r.low) % r.stride == 0

/-- Whether the run moves some code point to `n`. -/
def Run.reaches (r : Run) (n : Nat) : Bool :=
  decide (r.image ≤ n) && decide (n ≤ r.image + (r.high - r.low)) && (n - r.image) % r.stride == 0

/-- The code point that the runs move `n` to; `n` itself if none moves it. -/
def mapByRuns : List Run → Nat → Nat
  | [], n => n
  | r :: rest, n => if n < r.low then n else if r.holds n then r.image + (n - r.low) else mapByRuns rest n

/-- The code points that the runs move to `n`. -/
def sourcesByRuns (runs : List Run) (n : Nat) : List Nat :=
  (runs.filter (·.reaches n)).map fun r => r.low + (n - r.image)

end Treebank.Text
