/-!
# Ranges of code points

A character property is a table of ranges. This module holds the two shapes the tables use, plain
ranges and ranges with a step, and the look-ups on them.

* `inRanges`: some range holds the code point.
* `inSteps`: some stepped range holds the code point.
* `CaseRun.find?`: the image of a code point under a table of case runs.
-/

namespace AccessLayer.CodeRange

def inRanges (ranges : List (Nat × Nat)) (n : Nat) : Bool :=
  ranges.any fun r => r.1 ≤ n && n ≤ r.2

/-- Whether `n` is one of `lo, lo + step, …, hi` for one of the entries `(lo, hi, step)`. -/
def inSteps (ranges : List (Nat × Nat × Nat)) (n : Nat) : Bool :=
  ranges.any fun r => r.1 ≤ n && n ≤ r.2.1 && (n - r.1) % r.2.2 == 0

/-- A run of code points `lo, lo + step, …, hi` that a case map shifts as a block: `lo` goes to
`image` and the distance to `lo` is kept. -/
structure CaseRun where
  lo : Nat
  hi : Nat
  step : Nat
  image : Nat

def CaseRun.holds (r : CaseRun) (n : Nat) : Bool :=
  r.lo ≤ n && n ≤ r.hi && (n - r.lo) % r.step == 0

/-- The image of `n` under the first run that holds it. -/
def CaseRun.find? (runs : List CaseRun) (n : Nat) : Option Nat :=
  (runs.find? (·.holds n)).map fun r => r.image + (n - r.lo)

end AccessLayer.CodeRange
