import Mathlib.Data.Rat.Cast.Order
import MatrixCalc.Proofs.Decimal.Nearest

/-!
# Products and quotients of doubles

The product or quotient of two positive doubles is the double nearest to that of their values.

1. A product is formed exactly and then rounded (`rounds_mul`).
2. A quotient is formed with 53 bits, unless the finest exponent comes first, and the remainder says
   what was cut off (`holds_fraction`, `rounds_div`).
3. A positive double is the double nearest to its own value (`IsPositive.rounds`), so both hold of
   doubles as they are (`IsPositive.rounds_mul`, `IsPositive.rounds_div`).
-/

namespace MatrixCalc

open Float.Model Float.Model.UnpackedFloat

namespace Binary

/-! ## Products and quotients -/

variable {m₁ m₂ : ℕ}

theorem le_log2_mul (h₁ : 2 ^ 52 ≤ m₁) (h₂ : 0 < m₂) : 52 ≤ (m₁ * m₂).log2 := by
  have hle : 2 ^ 52 ≤ m₁ * m₂ := h₁.trans (Nat.le_mul_of_pos_right m₁ h₂)
  exact (Nat.le_log2 (by omega)).2 hle

theorem rounds_mul (e₁ e₂ : ℤ) (h₁ : 0 < m₁) (h₂ : 0 < m₂) (hfull : 2 ^ 52 ≤ m₁) :
    Rounds (m₁ * 2 ^ e₁ * (m₂ * 2 ^ e₂)) (UnpackedFloat.pack Format.binary64
      (UnpackedFloat.mul Format.binary64 (.finite .positive m₁ e₁ h₁)
        (.finite .positive m₂ e₂ h₂))).toNat := by
  have h := rounds_roundWithAccuracy (e := e₁ + e₂) (holds_exact (m₁ * m₂))
    (.inl (le_log2_mul hfull h₂))
  have hq : ((m₁ * m₂ : ℕ) : ℚ) * 2 ^ (e₁ + e₂) = m₁ * 2 ^ e₁ * (m₂ * 2 ^ e₂) := by
    rw [← two_zpow_mul]
    push_cast
    ring
  rw [hq] at h
  exact h

/-- The bits of a remainder tell how it compares with a half. -/
theorem holds_remainder (m : ℕ) {r den : ℕ} (h : r < den) :
    Holds (.ofMantissaAndAccuracy m (accuracyOfFraction r den)) (m + r / den) := by
  have hden : (0 : ℚ) < den := by exact_mod_cast (Nat.zero_le r).trans_lt h
  have hlt : (r : ℚ) < den := by exact_mod_cast h
  have hle_iff : 1 ≤ 2 * ((r : ℚ) / den) ↔ den ≤ 2 * r := by
    rw [← mul_div_assoc, le_div_iff₀ hden, one_mul]
    exact_mod_cast Iff.rfl
  have heq_iff : 2 * ((r : ℚ) / den) = 1 ↔ 2 * r = den := by
    rw [← mul_div_assoc, div_eq_iff hden.ne', one_mul]
    exact_mod_cast Iff.rfl
  have hzero_iff : (r : ℚ) / den = 0 ↔ r = 0 := by
    rw [div_eq_zero_iff, or_iff_left hden.ne', Nat.cast_eq_zero]
  unfold accuracyOfFraction
  by_cases hr : r = 0
  · rw [if_pos hr, hr, Nat.cast_zero, zero_div, add_zero]
    exact holds_exact m
  · rw [if_neg hr]
    have hbits : ∀ em : ExtendedMantissa, em.mantissa = m → (em.roundBit = true ↔ den ≤ 2 * r) →
        (em.stickyBit = false ↔ r = 0 ∨ 2 * r = den) → Holds em (m + r / den) := by
      rintro em rfl hround hsticky
      refine ⟨r / den, rfl, by positivity, (div_lt_one hden).2 hlt, ?_, ?_⟩
      · rw [hle_iff, hround]
      · rw [hzero_iff, heq_iff, hsticky]
    rcases Nat.lt_trichotomy (2 * r) den with hc | hc | hc
    · rw [Nat.compare_eq_lt.2 hc]
      exact hbits _ rfl (iff_of_false Bool.noConfusion (by omega))
        (iff_of_false Bool.noConfusion (by omega))
    · rw [Nat.compare_eq_eq.2 hc]
      exact hbits _ rfl (iff_of_true rfl (by omega)) (iff_of_true rfl (by omega))
    · rw [Nat.compare_eq_gt.2 hc]
      exact hbits _ rfl (iff_of_true rfl (by omega)) (iff_of_false Bool.noConfusion (by omega))

theorem holds_fraction (num : ℕ) {den : ℕ} (h : 0 < den) :
    Holds (.ofMantissaAndAccuracy (num / den) (accuracyOfFraction (num % den) den))
      ((num : ℚ) / den) := by
  have hden : (den : ℚ) ≠ 0 := by exact_mod_cast h.ne'
  have hsum : (den : ℚ) * (num / den : ℕ) + (num % den : ℕ) = num := by
    exact_mod_cast Nat.div_add_mod num den
  have hvalue : (num : ℚ) / den = (num / den : ℕ) + (num % den : ℕ) / den := by
    rw [div_eq_iff hden, add_mul, div_mul_cancel₀ _ hden, mul_comm, hsum]
  rw [hvalue]
  exact holds_remainder (num / den) (Nat.mod_lt num h)

/-- The exponent at which quotients are formed, never above that of the operands. -/
def quotientExponent (m₁ : ℕ) (e₁ : ℤ) (m₂ : ℕ) (e₂ : ℤ) : ℤ :=
  min (e₁ - e₂)
    (Format.binary64.targetExponent (totalExponent m₁ e₁ - totalExponent m₂ e₂))

theorem quotientExponent_le (m₁ : ℕ) (e₁ : ℤ) (m₂ : ℕ) (e₂ : ℤ) :
    quotientExponent m₁ e₁ m₂ e₂ ≤ -1074 ∨
      quotientExponent m₁ e₁ m₂ e₂ ≤ m₁.log2 + e₁ - (m₂.log2 + e₂) - 53 := by
  unfold quotientExponent totalExponent
  rw [targetExponent_binary64]
  omega

/-- The quotient at its exponent has 53 bits, unless the exponent is already the finest. -/
theorem le_log2_quotient (h₁ : 0 < m₁) (h₂ : 0 < m₂) {k : ℕ}
    (hk : (53 : ℤ) + m₂.log2 - m₁.log2 ≤ k) : 52 ≤ (m₁ <<< k / m₂).log2 := by
  have hle : 2 ^ 52 * m₂ ≤ m₁ <<< k := by
    calc
      2 ^ 52 * m₂ ≤ 2 ^ 52 * 2 ^ (m₂.log2 + 1) := Nat.mul_le_mul_left _ Nat.lt_log2_self.le
      _ = 2 ^ (52 + (m₂.log2 + 1)) := (pow_add 2 52 _).symm
      _ ≤ 2 ^ (m₁.log2 + k) := Nat.pow_le_pow_right two_pos (by omega)
      _ = 2 ^ m₁.log2 * 2 ^ k := pow_add 2 _ k
      _ ≤ m₁ * 2 ^ k := Nat.mul_le_mul_right _ (Nat.log2_self_le h₁.ne')
      _ = m₁ <<< k := (Nat.shiftLeft_eq m₁ k).symm
  have hquot : 2 ^ 52 ≤ m₁ <<< k / m₂ := (Nat.le_div_iff_mul_le h₂).2 hle
  exact (Nat.le_log2 (by omega)).2 hquot

theorem rounds_div (e₁ e₂ : ℤ) (h₁ : 0 < m₁) (h₂ : 0 < m₂) :
    Rounds (m₁ * 2 ^ e₁ / (m₂ * 2 ^ e₂)) (UnpackedFloat.pack Format.binary64
      (UnpackedFloat.div Format.binary64 (.finite .positive m₁ e₁ h₁)
        (.finite .positive m₂ e₂ h₂))).toNat := by
  have hexp := quotientExponent_le m₁ e₁ m₂ e₂
  have hle : quotientExponent m₁ e₁ m₂ e₂ ≤ e₁ - e₂ := min_le_left _ _
  have hdiv : UnpackedFloat.div Format.binary64 (.finite .positive m₁ e₁ h₁)
      (.finite .positive m₂ e₂ h₂) =
      roundWithAccuracy Format.binary64 .positive
        (m₁ <<< (e₁ - e₂ - quotientExponent m₁ e₁ m₂ e₂).toNat / m₂)
        (quotientExponent m₁ e₁ m₂ e₂)
        (accuracyOfFraction (m₁ <<< (e₁ - e₂ - quotientExponent m₁ e₁ m₂ e₂).toNat % m₂) m₂) := rfl
  rw [hdiv]
  generalize quotientExponent m₁ e₁ m₂ e₂ = t at hexp hle
  obtain ⟨k, hk⟩ := Int.eq_ofNat_of_zero_le (Int.sub_nonneg.2 hle)
  rw [hk, Int.toNat_natCast]
  have h := rounds_roundWithAccuracy (e := t) (holds_fraction (m₁ <<< k) h₂) (by
    rcases hexp with hexp | hexp
    · exact .inr hexp
    · exact .inl (le_log2_quotient h₁ h₂ (by omega)))
  have hq : ((m₁ <<< k : ℕ) : ℚ) / m₂ * 2 ^ t = m₁ * 2 ^ e₁ / (m₂ * 2 ^ e₂) := by
    have he : (2 : ℚ) ^ e₁ = 2 ^ k * 2 ^ t * 2 ^ e₂ := by
      rw [← zpow_natCast, two_zpow_mul, two_zpow_mul, ← hk]
      congr 1
      ring
    rw [Nat.shiftLeft_eq, he]
    push_cast
    have hm : (m₂ : ℚ) ≠ 0 := by exact_mod_cast h₂.ne'
    have hp : (2 : ℚ) ^ e₂ ≠ 0 := by positivity
    rw [div_mul_eq_mul_div, div_eq_div_iff hm (mul_ne_zero hm hp)]
    ring
  rw [hq] at h
  exact h

/-! ## Positive doubles -/

/-- The number of a magnitude. -/
def value (b : Binary) : ℚ := b.mantissa * 2 ^ b.exponent

/-- The double is finite and above zero. -/
structure IsPositive (x : Float) : Prop where
  finite : exponentField x ≠ 2047
  sign : isNegative x = false
  mantissa : 0 < (ofFloat x).mantissa

variable {x y : Float}

/-- A mantissa at its scale can be read off its word. -/
theorem ofFloat_of_word {s : ℤ} {n : ℕ} (hs : s ≤ finestScale) (hlt : n < 2 ^ 53)
    (hge : s < finestScale → 2 ^ 52 ≤ n)
    (hx : x.toBits.toNat = (finestScale - s).toNat * hiddenBit + n)
    (hfin : x.toBits.toNat < infinityBits) :
    exponentField x ≠ 2047 ∧ isNegative x = false ∧ ofFloat x = ⟨n, -s⟩ := by
  unfold isNegative ofFloat exponentField fractionField
  generalize x.toBits.toNat = w at hx hfin
  unfold finestScale hiddenBit infinityBits at *
  refine ⟨by omega, decide_eq_false (by omega), ?_⟩
  by_cases hn : 2 ^ 52 ≤ n
  · rw [if_neg (by omega), mk.injEq]
    omega
  · rw [if_pos (by omega), mk.injEq]
    omega

/-- A positive double is the double nearest to its own value. -/
theorem IsPositive.rounds (h : IsPositive x) : Rounds (ofFloat x).value x.toBits.toNat := by
  obtain ⟨hfin, hsign, hpos⟩ := h
  have hword := toNat_toBits hsign
  have hlt : exponentField x < 2048 := Nat.mod_lt _ (by decide)
  have hfrac : fractionField x < 2 ^ 52 := Nat.mod_lt _ (by decide)
  have hparts : -(ofFloat x).exponent ≤ finestScale ∧ (ofFloat x).mantissa < 2 ^ 53 ∧
      (-(ofFloat x).exponent < finestScale → 2 ^ 52 ≤ (ofFloat x).mantissa) ∧
      x.toBits.toNat = wordAt (-(ofFloat x).exponent) (ofFloat x).mantissa := by
    unfold wordAt finestScale infinityBits ofFloat
    rw [hword]
    unfold hiddenBit
    split
    · dsimp only
      omega
    · dsimp only
      omega
  obtain ⟨hs, hm, hfull, hw⟩ := hparts
  have h := rounds_wordAt hs hm hfull
  rw [neg_neg, ← hw] at h
  exact h

theorem IsPositive.rounds_mul (hx : IsPositive x) (hy : IsPositive y)
    (hfull : 2 ^ 52 ≤ (ofFloat x).mantissa) :
    Rounds ((ofFloat x).value * (ofFloat y).value) (x * y).toBits.toNat := by
  show Rounds _ (UnpackedFloat.pack Format.binary64
    (UnpackedFloat.mul Format.binary64 x.toModel.unpack y.toModel.unpack)).toNat
  rw [unpack_of_finite hx.finite hx.sign hx.mantissa, unpack_of_finite hy.finite hy.sign hy.mantissa]
  exact Binary.rounds_mul _ _ hx.mantissa hy.mantissa hfull

theorem IsPositive.rounds_div (hx : IsPositive x) (hy : IsPositive y) :
    Rounds ((ofFloat x).value / (ofFloat y).value) (x / y).toBits.toNat := by
  show Rounds _ (UnpackedFloat.pack Format.binary64
    (UnpackedFloat.div Format.binary64 x.toModel.unpack y.toModel.unpack)).toNat
  rw [unpack_of_finite hx.finite hx.sign hx.mantissa, unpack_of_finite hy.finite hy.sign hy.mantissa]
  exact Binary.rounds_div _ _ hx.mantissa hy.mantissa

end Binary

end MatrixCalc
