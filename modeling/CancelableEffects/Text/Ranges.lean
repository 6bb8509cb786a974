/-!
# Ranges — sets of characters given by code points

* `Range`: the code points from a first to a last one.
* `inRanges`: whether a character lies in one of the given ranges.
-/

namespace CancelableEffects.Text

/-- The code points from the first component to the second, both included. -/
abbrev Range := Nat × Nat

/-- Whether the character's code point lies in one of the ranges. -/
def inRanges (ranges : Array Range) (c : Char) : Bool :=
  ranges.any fun r => r.1 ≤ c.toNat && c.toNat ≤ r.2

/-- A character is in the ranges exactly when one of them holds its code point. -/
theorem inRanges_iff {ranges : Array Range} {c : Char} :
    inRanges ranges c = true ↔ ∃ r ∈ ranges, r.1 ≤ c.toNat ∧ c.toNat ≤ r.2 := by
  simp only [inRanges, Array.any_eq_true', Bool.and_eq_true, decide_eq_true_eq]

end CancelableEffects.Text
