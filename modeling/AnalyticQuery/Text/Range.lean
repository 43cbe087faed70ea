/-!
# Ranges of code points

A property of characters is a list of closed ranges of code points, in increasing order. Long lists
are given by the lengths of runs.
-/

namespace AnalyticQuery.Text

/-- The closed ranges that runs of code points cover. From a code point on runs without and with a
property take turns, and their lengths are given. -/
def rangesFrom (start : Nat) : List Nat → List (Nat × Nat)
  | skipped :: length :: runs =>
    let first := start + skipped
    (first, first + length - 1) :: rangesFrom (first + length) runs
  | _ => []

/-- Whether a character's code point lies in one of the closed ranges. -/
def inRanges (ranges : List (Nat × Nat)) (c : Char) : Bool :=
  ranges.any fun (first, last) => first ≤ c.toNat && c.toNat ≤ last

/-- A character is in the ranges exactly when one of them holds its code point. -/
theorem inRanges_iff {ranges : List (Nat × Nat)} {c : Char} :
    inRanges ranges c = true ↔ ∃ r ∈ ranges, r.1 ≤ c.toNat ∧ c.toNat ≤ r.2 := by
  simp [inRanges, List.any_eq_true]

end AnalyticQuery.Text
