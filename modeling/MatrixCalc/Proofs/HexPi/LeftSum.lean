import Mathlib.Algebra.BigOperators.Group.Finset.Basic
import Mathlib.Data.Rat.Floor
import Mathlib.Tactic.FieldSimp
import MatrixCalc.HexPi.Digit
import MatrixCalc.Proofs.HexPi.PowerMod

/-!
# The left sum in exact numbers

Among the rational numbers nothing is rounded, and the left sum is the fraction of the sum of
`16 ^ (count - 1 - k) / (8 * k + j)` over its terms (`leftSum_eq_fract`): no step drops more than
whole numbers.

1. A power taken modulo the denominator changes the quotient by a whole number
   (`exists_powerMod_div`).
2. So a step from the fraction of a sum leads to the fraction of the sum with one more term
   (`leftStep_fract`), and the steps in order to that of the whole sum (`foldl_leftStep`).
-/

namespace MatrixCalc.HexPi

instance : Fractions ℚ where
  zero := 0
  add x y := x + y
  quotient a b := a / b
  dropWhole x := x - ⌊x⌋

variable {j : ℤ} {count : ℕ}

/-- Modulo the denominator, the power loses a whole number of the quotient. -/
theorem exists_powerMod_div {e r : ℤ} (he : 0 ≤ e) (hr : 0 < r) :
    ∃ z : ℤ, (powerMod 16 e r : ℚ) / r = 16 ^ e / r - z := by
  lift e to ℕ using he
  have hr' : (r : ℚ) ≠ 0 := by exact_mod_cast hr.ne'
  refine ⟨16 ^ e / r, ?_⟩
  rw [powerMod_eq_emod (by norm_num) (Int.natCast_nonneg e) hr, Int.toNat_natCast, Int.emod_def,
    zpow_natCast]
  push_cast
  field_simp

/-- One step: the fraction so far and the power modulo the denominator are each off by a whole number
only. -/
theorem leftStep_fract (hj : 1 ≤ j) {k : ℕ} (hk : k < count) (x : ℚ) :
    leftStep j count (Int.fract x) k = Int.fract (x + 16 ^ ((count : ℤ) - 1 - k) / (8 * k + j)) := by
  have hr : 0 < denominator j k := by
    unfold denominator
    omega
  obtain ⟨z, hz⟩ := exists_powerMod_div (e := (count : ℤ) - 1 - k) (by omega) hr
  show Int.fract (Int.fract x + (powerMod 16 _ (denominator j k) : ℚ) / denominator j k) = _
  rw [hz, Int.fract_eq_fract]
  refine ⟨-⌊x⌋ - z, ?_⟩
  unfold denominator Int.fract
  push_cast
  ring

theorem foldl_leftStep (hj : 1 ≤ j) {n : ℕ} (hn : n ≤ count) :
    (List.range n).foldl (leftStep j count) (0 : ℚ) =
      Int.fract (∑ k ∈ Finset.range n, (16 : ℚ) ^ ((count : ℤ) - 1 - k) / (8 * k + j)) := by
  induction n with
  | zero => simp
  | succ n ih =>
    rw [List.range_succ, List.foldl_append, ih (by omega), List.foldl_cons, List.foldl_nil,
      leftStep_fract hj hn, Finset.sum_range_succ]

theorem leftSum_eq_fract (hj : 1 ≤ j) (count : ℕ) :
    (leftSum j count : ℚ) =
      Int.fract (∑ k ∈ Finset.range count, (16 : ℚ) ^ ((count : ℤ) - 1 - k) / (8 * k + j)) :=
  foldl_leftStep hj le_rfl

/-- **The left sum modulo one.** In exact numbers, for every positive offset and every number of
terms, none included, the left sum is at least zero and less than one, and it differs by a whole
number from the sum with its powers in full. -/
theorem leftSum_exact (j : ℤ) (count : ℕ) (hj : 1 ≤ j) :
    0 ≤ (leftSum j count : ℚ) ∧ (leftSum j count : ℚ) < 1 ∧
      ∃ z : ℤ, ∑ k ∈ Finset.range count, (16 : ℚ) ^ ((count : ℤ) - 1 - k) / (8 * k + j) -
        leftSum j count = z :=
  Int.fract_eq_iff.1 (leftSum_eq_fract hj count).symm

/-- The first denominator is one, where every power has the remainder zero. -/
theorem leftSum_exact_one :
    (1 : ℤ) ≤ 1 ∧ 0 ≤ (leftSum 1 3 : ℚ) ∧ (leftSum 1 3 : ℚ) < 1 ∧
      ∃ z : ℤ, ∑ k ∈ Finset.range 3, (16 : ℚ) ^ (((3 : ℕ) : ℤ) - 1 - k) / (8 * k + (1 : ℤ)) -
        leftSum 1 3 = z :=
  ⟨le_rfl, leftSum_exact 1 3 le_rfl⟩

end MatrixCalc.HexPi
