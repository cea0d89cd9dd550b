import MatrixCalc.HexPi.Digit
import MatrixCalc.Proofs.Decimal.Unsigned

/-!
# The tail ends

The tail stops when a term no longer changes the sum. Nothing in it counts steps: it stops because the
powers of 16 vanish among doubles.

1. A power of two within the range of doubles is a double (`value_of_rounds_two_zpow`), so every
   power of the tail is the double nearest to the power of 16 (`rounds_tailPower`): the power itself as
   long as it is a double, and zero from the place 268 on (`tailPower_eq_zero`).
2. Denominators are positive doubles (`isPositive_denominator`), so no sum is a NaN
   (`isUnsigned_tailSum`), and a sum to which zero is added is equal to the one before
   (`tailSum_steady`).
3. A step compares two sums (`tailWithin_step`), and steps that do not stop lead from sum to sum
   (`tailWithin_run`). So the tail stops at the first place where the sum is steady, whatever the
   number of steps it is allowed beyond that.
-/

namespace MatrixCalc.HexPi

open Binary

/-- The power of 16 at a place of the tail. -/
def tailPower : ℕ → Float
  | 0 => 1.0 / 16.0
  | i + 1 => tailPower i / 16.0

/-- The sum of the tail before the term at a place. -/
def tailSum (j : ℤ) (count : ℕ) : ℕ → Float
  | 0 => 0.0
  | i + 1 => tailSum j count i + tailPower i / Float.ofInt (denominator j (count + i))

/-- The tail stops at a place: no denominator up to there is zero or beyond the doubles, every term
before changes the sum, and the one there does not. -/
structure StopsAt (j : ℤ) (count i : ℕ) : Prop where
  denominators : ∀ l ≤ i, denominator j (count + l) ≠ 0 ∧
    IsPositive (Float.ofInt (denominator j (count + l)))
  changing : ∀ l < i, (tailSum j count (l + 1) == tailSum j count l) = false
  steady : (tailSum j count (i + 1) == tailSum j count i) = true

/-! ## Powers -/

theorem sixteen_zpow (i : ℕ) : (16 : ℚ) ^ (-(i + 1 : ℤ)) = 2 ^ (-(4 * (i + 1) : ℤ)) := by
  rw [show (16 : ℚ) = 2 ^ (4 : ℤ) by norm_num, ← zpow_mul, mul_neg]

theorem sixteen_double : IsPositive 16.0 ∧ (ofFloat 16.0).value = 16 := by
  have hword : (16.0 : Float).toBits.toNat = wordAt 48 (2 ^ 52) := by decide +kernel
  have h := rounds_wordAt (s := 48) (n := 2 ^ 52) (by decide) (by decide) (fun _ => le_rfl)
  have hvalue : ((2 ^ 52 : ℕ) : ℚ) * 2 ^ (-48 : ℤ) = 2 ^ (4 : ℤ) := by norm_num
  rw [hvalue, ← hword] at h
  obtain ⟨hpos, hsixteen⟩ := value_of_rounds_two_zpow h (by omega) (by omega)
  exact ⟨hpos, hsixteen.trans (by norm_num)⟩

theorem rounds_zero_of_le {i : ℕ} (h : 268 ≤ i) : Rounds (16 ^ (-(i + 1 : ℤ))) 0 := by
  rw [sixteen_zpow]
  exact rounds_zero (by positivity) (zpow_lt_zpow_right₀ (by norm_num) (by omega))

/-- Every power of the tail is the double nearest to the power of 16. -/
theorem rounds_tailPower (i : ℕ) : Rounds (16 ^ (-(i + 1 : ℤ))) (tailPower i).toBits.toNat := by
  induction i with
  | zero =>
    have hword : (1.0 / 16.0 : Float).toBits.toNat = wordAt 56 (2 ^ 52) := by decide +kernel
    have h := rounds_wordAt (s := 56) (n := 2 ^ 52) (by decide) (by decide) (fun _ => le_rfl)
    have hvalue : ((2 ^ 52 : ℕ) : ℚ) * 2 ^ (-56 : ℤ) = 16 ^ (-((0 : ℕ) + 1 : ℤ)) := by norm_num
    rw [hvalue, ← hword] at h
    exact h
  | succ i ih =>
    by_cases hi : 268 ≤ i
    · -- zero stays zero
      have hzero := eq_zero_of_rounds_zero ih (rounds_zero_of_le hi)
      have hnext : tailPower (i + 1) = 0.0 := by
        unfold tailPower
        rw [hzero, sixteen_double.1.zero_div]
      rw [hnext]
      exact rounds_zero_of_le (by omega)
    · -- the power is a double, and so it is the number that is divided
      rw [sixteen_zpow] at ih
      obtain ⟨hpos, hvalue⟩ := value_of_rounds_two_zpow ih (by omega) (by omega)
      have h := hpos.rounds_div sixteen_double.1
      have hquotient : (2 : ℚ) ^ (-(4 * (i + 1) : ℤ)) / 16 = 16 ^ (-((i + 1 : ℕ) + 1 : ℤ)) := by
        have hnext : -((i + 1 : ℕ) + 1 : ℤ) = -(i + 1 : ℤ) - 1 := by omega
        rw [← sixteen_zpow, hnext, zpow_sub_one₀ (by norm_num), div_eq_mul_inv]
      rw [hvalue, sixteen_double.2, hquotient] at h
      exact h

theorem tailPower_eq_zero {i : ℕ} (h : 268 ≤ i) : tailPower i = 0.0 :=
  eq_zero_of_rounds_zero (rounds_tailPower i) (rounds_zero_of_le h)

theorem isUnsigned_tailPower (i : ℕ) : IsUnsigned (tailPower i) :=
  (rounds_tailPower i).le_infinityBits

/-! ## Sums -/

section InRange

variable {j : ℤ} {count : ℕ} (hj : 1 ≤ j) (hrange : 8 * ((count : ℤ) + 270) + j < 2 ^ 1024 - 2 ^ 970)

include hj

theorem denominator_pos (k : ℕ) : 0 < denominator j k := by
  unfold denominator
  omega

include hrange

theorem isPositive_denominator {l : ℕ} (hl : l ≤ 270) :
    IsPositive (Float.ofInt (denominator j (count + l))) := by
  have hle : denominator j (count + l) ≤ 8 * ((count : ℤ) + 270) + j := by
    unfold denominator
    clear hrange
    omega
  exact isPositive_ofInt (denominator_pos hj _) (hle.trans_lt hrange)

theorem isUnsigned_tailSum {i : ℕ} (hi : i ≤ 270) : IsUnsigned (tailSum j count i) := by
  induction i with
  | zero => exact Nat.zero_le _
  | succ i ih =>
    have hterm := (isUnsigned_tailPower i).div (isPositive_denominator hj hrange (l := i) (by omega))
    exact (ih (by omega)).add hterm

/-- Where the power is zero, the sum no longer changes. -/
theorem tailSum_steady : (tailSum j count 269 == tailSum j count 268) = true := by
  have hsum := isUnsigned_tailSum hj hrange (i := 268) (by omega)
  have hnext : tailSum j count 269 = tailSum j count 268 := by
    show tailSum j count 268 + tailPower 268 / Float.ofInt (denominator j (count + 268)) = _
    rw [tailPower_eq_zero le_rfl, (isPositive_denominator hj hrange (by omega)).zero_div,
      hsum.add_zero]
  rw [hnext]
  exact hsum.beq_self

/-! ## Steps -/

theorem tailWithin_step {i : ℕ} (hi : i ≤ 270) (steps : ℕ) :
    tailWithin j (steps + 1) (count + i) (tailPower i) (tailSum j count i) =
      if tailSum j count (i + 1) == tailSum j count i then .ok (tailSum j count i)
      else tailWithin j steps (count + (i + 1)) (tailPower (i + 1)) (tailSum j count (i + 1)) := by
  have hr := (denominator_pos hj (count + i)).ne'
  have hinf := (isPositive_denominator hj hrange hi).isInf
  rw [tailWithin, if_neg hr, if_neg (Bool.eq_false_iff.1 hinf)]
  rfl

/-- Steps that do not stop lead from the first sum to a later one. -/
theorem tailWithin_run {i : ℕ} (hi : i ≤ 270)
    (h : ∀ l < i, (tailSum j count (l + 1) == tailSum j count l) = false) (steps : ℕ) :
    tailWithin j (steps + i) count (1.0 / 16.0) 0.0 =
      tailWithin j steps (count + i) (tailPower i) (tailSum j count i) := by
  induction i generalizing steps with
  | zero => rfl
  | succ i ih =>
    have hstep := tailWithin_step hj hrange (i := i) (by omega) steps
    rw [h i (by omega)] at hstep
    calc
      tailWithin j (steps + (i + 1)) count (1.0 / 16.0) 0.0
        = tailWithin j (steps + 1 + i) count (1.0 / 16.0) 0.0 := by
          rw [Nat.add_right_comm, Nat.add_assoc]
      _ = tailWithin j (steps + 1) (count + i) (tailPower i) (tailSum j count i) :=
        ih (by omega) (fun l hl => h l (by omega)) (steps + 1)
      _ = tailWithin j steps (count + (i + 1)) (tailPower (i + 1)) (tailSum j count (i + 1)) := hstep

theorem exists_stopsAt : ∃ i < 270, StopsAt j count i := by
  have hex : ∃ i, (tailSum j count (i + 1) == tailSum j count i) = true :=
    ⟨268, tailSum_steady hj hrange⟩
  have hle : Nat.find hex ≤ 268 := Nat.find_le (tailSum_steady hj hrange)
  refine ⟨Nat.find hex, by omega, ?_, ?_, Nat.find_spec hex⟩
  · intro l hl
    exact ⟨(denominator_pos hj _).ne', isPositive_denominator hj hrange (by omega)⟩
  · intro l hl
    exact Bool.eq_false_iff.2 (Nat.find_min hex hl)

theorem StopsAt.tailWithin_eq {i : ℕ} (h : StopsAt j count i) (hi : i < 270) (steps : ℕ) :
    tailWithin j steps count (1.0 / 16.0) 0.0 =
      if i < steps then .ok (tailSum j count i) else .error .endless := by
  by_cases hlt : i < steps
  · obtain ⟨d, rfl⟩ : ∃ d, steps = d + 1 + i := ⟨steps - i - 1, by omega⟩
    rw [if_pos hlt, tailWithin_run hj hrange hi.le h.changing, tailWithin_step hj hrange hi.le,
      if_pos h.steady]
  · have hrun := tailWithin_run hj hrange (i := steps) (by omega)
      (fun l hl => h.changing l (by omega)) 0
    rw [Nat.zero_add] at hrun
    rw [if_neg hlt, hrun]
    rfl

end InRange

/-- **The tail ends.** For every positive offset and every number of terms in the left sum, the
denominators being in the range of doubles, the tail stops within 270 steps and gives the sum there:
no denominator is zero on the way, and no bound on the steps beyond that changes anything. The
powers in it are the doubles nearest to those of 16. -/
theorem tail_ends (j : ℤ) (count : ℕ) (hj : 1 ≤ j)
    (hrange : 8 * ((count : ℤ) + 270) + j < 2 ^ 1024 - 2 ^ 970) :
    (∀ l : ℕ, Rounds (16 ^ (-(l + 1 : ℤ))) (tailPower l).toBits.toNat) ∧
      ∃ i < 270, StopsAt j count i ∧ tail j count = .ok (tailSum j count i) ∧
        ∀ steps, tailWithin j steps count (1.0 / 16.0) 0.0 =
          if i < steps then .ok (tailSum j count i) else .error .endless := by
  obtain ⟨i, hi, hstop⟩ := exists_stopsAt hj hrange
  have hrun := hstop.tailWithin_eq hj hrange hi
  exact ⟨rounds_tailPower, i, hi, hstop, (hrun maxTailSteps).trans (if_pos hi), hrun⟩

/-- No term stands in the left sum, and the first denominator is one. -/
theorem tail_ends_one :
    (1 : ℤ) ≤ 1 ∧ 8 * (((0 : ℕ) : ℤ) + 270) + 1 < 2 ^ 1024 - 2 ^ 970 ∧
      (∀ l : ℕ, Rounds (16 ^ (-(l + 1 : ℤ))) (tailPower l).toBits.toNat) ∧
      ∃ i < 270, StopsAt 1 0 i ∧ tail 1 0 = .ok (tailSum 1 0 i) ∧
        ∀ steps, tailWithin 1 steps 0 (1.0 / 16.0) 0.0 =
          if i < steps then .ok (tailSum 1 0 i) else .error .endless :=
  have hrange : 8 * (((0 : ℕ) : ℤ) + 270) + 1 < 2 ^ 1024 - 2 ^ 970 := by decide +kernel
  ⟨le_rfl, hrange, tail_ends 1 0 le_rfl hrange⟩

end MatrixCalc.HexPi
