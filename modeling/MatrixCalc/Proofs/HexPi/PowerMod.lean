import Mathlib.Data.Int.ModEq
import Mathlib.Tactic.Ring
import MatrixCalc.HexPi.PowerMod

/-!
# The remainder of a power

A round of the loop halves the exponent, which ends the loop for every exponent, and squares the
base. Modulo `m` it keeps `result * base ^ b` (`round_modEq`), so the loop ends with what this was at
its start (`powerLoop_modEq`). The result stays below the modulus, so it is the remainder itself
(`powerLoop_eq`), and `powerMod` gives the one remainder of the power (`powerMod_eq_iff`).
-/

namespace MatrixCalc.HexPi

/-- One round: an odd exponent leaves a factor with the result, and the squared base makes up for the
half of the exponent. -/
theorem round_modEq (m result base b : ℕ) :
    (if b % 2 = 1 then result * base % m else result) * (base * base % m) ^ (b / 2) ≡
      result * base ^ b [MOD m] := by
  have hsquare : (base * base % m) ^ (b / 2) ≡ base ^ (2 * (b / 2)) [MOD m] := by
    rw [pow_mul, pow_two]
    exact (Nat.mod_modEq _ _).pow _
  split_ifs with hodd
  · calc result * base % m * (base * base % m) ^ (b / 2)
        ≡ result * base * base ^ (2 * (b / 2)) [MOD m] := (Nat.mod_modEq _ _).mul hsquare
      _ = result * base ^ (2 * (b / 2) + 1) := by ring
      _ = result * base ^ b := by rw [show 2 * (b / 2) + 1 = b by omega]
  · calc result * (base * base % m) ^ (b / 2)
        ≡ result * base ^ (2 * (b / 2)) [MOD m] := hsquare.mul_left result
      _ = result * base ^ b := by rw [show 2 * (b / 2) = b by omega]

theorem powerLoop_modEq (m result base b : ℕ) :
    powerLoop m result base b ≡ result * base ^ b [MOD m] := by
  fun_induction powerLoop m result base b with
  | case1 result base => rw [pow_zero, mul_one]
  | case2 result base b hb ih => exact ih.trans (round_modEq m result base b)

theorem powerLoop_lt {m result : ℕ} (h : result < m) (base b : ℕ) :
    powerLoop m result base b < m := by
  fun_induction powerLoop m result base b with
  | case1 result base => exact h
  | case2 result base b hb ih =>
    refine ih ?_
    split_ifs
    · exact Nat.mod_lt _ (Nat.zero_lt_of_lt h)
    · exact h

theorem powerLoop_eq {m result : ℕ} (h : result < m) (base b : ℕ) :
    powerLoop m result base b = result * base ^ b % m := by
  have hmod : powerLoop m result base b % m = result * base ^ b % m := powerLoop_modEq m result base b
  rwa [Nat.mod_eq_of_lt (powerLoop_lt h base b)] at hmod

theorem powerMod_natCast (a b : ℕ) {m : ℕ} (hm : 0 < m) : powerMod a b m = ↑(a ^ b % m) := by
  unfold powerMod
  rw [if_neg (by omega)]
  split_ifs with hone
  · obtain rfl : m = 1 := by omega
    rw [Nat.mod_one]
    rfl
  · rw [Int.toNat_natCast, Int.toNat_natCast, Int.toNat_natCast, powerLoop_eq (by omega), one_mul,
      ← Nat.pow_mod]

theorem powerMod_eq_emod {a b m : ℤ} (ha : 0 ≤ a) (hb : 0 ≤ b) (hm : 0 < m) :
    powerMod a b m = a ^ b.toNat % m := by
  lift a to ℕ using ha
  lift b to ℕ using hb
  lift m to ℕ using hm.le
  rw [powerMod_natCast a b (by omega)]
  push_cast
  rfl

/-- **Remainders of powers.** The answer is -1 for a negative base or exponent and for a modulus that
is not positive. Otherwise it is the one number from zero up to the modulus that is congruent to the
power, the zeroth power of zero being one. -/
theorem powerMod_eq_iff (a b m r : ℤ) :
    powerMod a b m = r ↔
      if a < 0 ∨ b < 0 ∨ m ≤ 0 then r = -1
      else 0 ≤ r ∧ r < m ∧ r ≡ a ^ b.toNat [ZMOD m] := by
  split_ifs with h
  · rw [powerMod, if_pos h, eq_comm]
  · have hm : 0 < m := by omega
    rw [powerMod_eq_emod (by omega) (by omega) hm]
    constructor
    · rintro rfl
      exact ⟨Int.emod_nonneg _ hm.ne', Int.emod_lt_of_pos _ hm, Int.mod_modEq _ _⟩
    · rintro ⟨hr, hlt, hmod⟩
      rw [← hmod.eq, Int.emod_eq_of_lt hr hlt]

-- The zeroth power of zero, modulo one and modulo two.
example : powerMod 0 0 1 = 0 ∧ powerMod 0 0 2 = 1 := by decide +kernel

end MatrixCalc.HexPi
