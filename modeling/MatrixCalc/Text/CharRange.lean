/-!
# Classes of characters as ranges

A class of characters is a list of closed ranges of code points, ascending and apart.
-/

namespace MatrixCalc.Text

/-- The code point of the character lies in one of the ranges. -/
def inRanges (ranges : List (Nat × Nat)) (c : Char) : Bool :=
  ranges.any fun r => r.1 ≤ c.toNat && c.toNat ≤ r.2

theorem inRanges_iff {ranges : List (Nat × Nat)} {c : Char} :
    inRanges ranges c = true ↔ ∃ r ∈ ranges, r.1 ≤ c.toNat ∧ c.toNat ≤ r.2 := by
  unfold inRanges
  rw [List.any_eq_true]
  simp only [Bool.and_eq_true, decide_eq_true_eq]

end MatrixCalc.Text
