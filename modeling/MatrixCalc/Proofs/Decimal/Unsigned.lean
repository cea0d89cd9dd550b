import MatrixCalc.Proofs.Decimal.Negation
import MatrixCalc.Proofs.Decimal.Reading

/-!
# Doubles with a clear sign

The words up to that of infinity are those of zero, of the positive doubles and of infinity
(`IsUnsigned.cases`). Sums and quotients of such doubles stay among them, so no NaN can arise from a sum
of quotients of positive numbers.

1. A mantissa at any exponent is rounded to the nearest double (`rounds_round`), so the sum of two
   positive doubles is the double nearest to the sum of their values (`IsPositive.rounds_add`).
2. Any other sum is one of its operands (`IsUnsigned.add_cases`). Hence `IsUnsigned.add` and
   `IsUnsigned.div`; zero adds nothing (`IsUnsigned.add_zero`), and such a double is equal to itself
   (`IsUnsigned.beq_self`).
3. A positive integer is a positive double, unless it is so large that it is rounded to infinity
   (`isPositive_ofInt`).
4. A power of two is a double where it is in range (`value_of_rounds_two_zpow`).
-/

namespace MatrixCalc

open Float.Model Float.Model.UnpackedFloat

namespace Binary

/-- The double is zero with a clear sign, positive, or infinity with a clear sign. -/
def IsUnsigned (x : Float) : Prop := x.toBits.toNat ≤ infinityBits

variable {x y z : Float} {q : ℚ} {b : ℕ}

theorem isPositive_of_toBits (h0 : 0 < x.toBits.toNat) (h : x.toBits.toNat < infinityBits) :
    IsPositive x := by
  have hfinite : exponentField x ≠ 2047 := by
    unfold exponentField hiddenBit
    unfold infinityBits at h
    omega
  have hsign : isNegative x = false := by
    unfold isNegative
    unfold infinityBits at h
    rw [decide_eq_false_iff_not]
    omega
  refine ⟨hfinite, hsign, ?_⟩
  have hword := toNat_toBits hsign
  unfold ofFloat
  unfold hiddenBit at *
  split
  · dsimp only
    omega
  · dsimp only
    omega

theorem Rounds.le_infinityBits (h : Rounds q b) : b ≤ infinityBits := by
  obtain ⟨s, n, -, -, rfl⟩ := h
  exact min_le_left _ _

/-! ## Sums and quotients -/

theorem value_shiftLeft {m : ℕ} {d e : ℤ} (h : d ≤ e) :
    ((m <<< (e - d).toNat : ℕ) : ℚ) * 2 ^ d = m * 2 ^ e := by
  have hsum : ((e - d).toNat : ℤ) + d = e := by omega
  rw [Nat.shiftLeft_eq, Nat.cast_mul, Nat.cast_pow, Nat.cast_ofNat, ← zpow_natCast, mul_assoc,
    two_zpow_mul, hsum]

/-- A mantissa is brought to enough bits before it is rounded. -/
theorem rounds_round {m : ℕ} (hm : 0 < m) (e : ℤ) :
    Rounds (m * 2 ^ e) (UnpackedFloat.pack Format.binary64
      (UnpackedFloat.round Format.binary64 .positive m e)).toNat := by
  have htarget : Format.binary64.targetExponent (totalExponent m e) =
      max ((m.log2 : ℤ) + e - 52) (-1074) := by
    unfold totalExponent
    rw [targetExponent_binary64]
    omega
  unfold UnpackedFloat.round decreaseExponent
  dsimp only
  rw [htarget]
  generalize hk : (e - max ((m.log2 : ℤ) + e - 52) (-1074)).toNat = k
  have hfull : 52 ≤ (m <<< k).log2 ∨ e - k ≤ -1074 := by
    by_cases hlow : e - k ≤ -1074
    · exact .inr hlow
    · have hle : 2 ^ 52 ≤ m <<< k := by
        calc
          2 ^ 52 ≤ 2 ^ (m.log2 + k) := Nat.pow_le_pow_right two_pos (by omega)
          _ = 2 ^ m.log2 * 2 ^ k := pow_add 2 _ k
          _ ≤ m * 2 ^ k := Nat.mul_le_mul_right _ (Nat.log2_self_le hm.ne')
          _ = m <<< k := (Nat.shiftLeft_eq m k).symm
      exact .inl ((Nat.le_log2 (by omega)).2 hle)
  have h := rounds_roundWithAccuracy (e := e - k) (holds_exact (m <<< k)) hfull
  have hq := value_shiftLeft (m := m) (d := e - k) (e := e) (by omega)
  rw [sub_sub_cancel, Int.toNat_natCast] at hq
  rwa [hq] at h

theorem rounds_add {m₁ m₂ : ℕ} (e₁ e₂ : ℤ) (h₁ : 0 < m₁) (h₂ : 0 < m₂) :
    Rounds (m₁ * 2 ^ e₁ + m₂ * 2 ^ e₂) (UnpackedFloat.pack Format.binary64
      (UnpackedFloat.add Format.binary64 (.finite .positive m₁ e₁ h₁)
        (.finite .positive m₂ e₂ h₂))).toNat := by
  rw [← value_shiftLeft (min_le_left e₁ e₂), ← value_shiftLeft (min_le_right e₁ e₂), ← add_mul,
    ← Nat.cast_add]
  have hadd : UnpackedFloat.add Format.binary64 (.finite .positive m₁ e₁ h₁)
      (.finite .positive m₂ e₂ h₂) =
      UnpackedFloat.normalize Format.binary64 ((m₁ <<< (e₁ - min e₁ e₂).toNat +
        m₂ <<< (e₂ - min e₁ e₂).toNat : ℕ) : ℤ) (min e₁ e₂) .positive := rfl
  have hpos : 0 < m₁ <<< (e₁ - min e₁ e₂).toNat + m₂ <<< (e₂ - min e₁ e₂).toNat := by
    rw [Nat.shiftLeft_eq]
    exact Nat.add_pos_left (Nat.mul_pos h₁ (Nat.pow_pos two_pos)) _
  rw [hadd]
  generalize m₁ <<< (e₁ - min e₁ e₂).toNat + m₂ <<< (e₂ - min e₁ e₂).toNat = m at hpos
  unfold UnpackedFloat.normalize
  rw [Int.compare_eq_gt.2 (Int.natCast_pos.2 hpos)]
  exact rounds_round hpos _

/-- The sum of two positive doubles is the double nearest to the sum of their values. -/
theorem IsPositive.rounds_add (hx : IsPositive x) (hy : IsPositive y) :
    Rounds ((ofFloat x).value + (ofFloat y).value) (x + y).toBits.toNat := by
  show Rounds _ (UnpackedFloat.pack Format.binary64
    (UnpackedFloat.add Format.binary64 x.toModel.unpack y.toModel.unpack)).toNat
  rw [unpack_of_finite hx.finite hx.sign hx.mantissa, unpack_of_finite hy.finite hy.sign hy.mantissa]
  exact Binary.rounds_add _ _ hx.mantissa hy.mantissa

/-! ## Doubles with a clear sign -/

theorem unpack_of_toBits_eq_zero (h : x.toBits.toNat = 0) : x.toModel.unpack = .zero .positive := by
  have hword : wordOf x = word .positive 0#11 0#52 := BitVec.eq_of_toNat_eq h
  show UnpackedFloat.unpack Format.binary64 (wordOf x) = _
  rw [hword, unpack_zero_word]

theorem unpack_of_toBits_eq_infinityBits (h : x.toBits.toNat = infinityBits) :
    x.toModel.unpack = .infinity .positive := by
  have hword : wordOf x = word .positive (-1#11) 0#52 := BitVec.eq_of_toNat_eq h
  show UnpackedFloat.unpack Format.binary64 (wordOf x) = _
  rw [hword]
  exact (Double.HasParts.infinity .positive).unpack_eq

/-- Such a double is zero, infinity or positive. -/
theorem IsUnsigned.cases (h : IsUnsigned x) :
    x.toModel.unpack = .zero .positive ∨ x.toModel.unpack = .infinity .positive ∨
      IsPositive x ∧ ∃ m e hm, x.toModel.unpack = .finite .positive m e hm := by
  rcases Nat.eq_zero_or_pos x.toBits.toNat with h0 | h0
  · exact .inl (unpack_of_toBits_eq_zero h0)
  · rcases Nat.lt_or_eq_of_le h with hlt | heq
    · have hx := isPositive_of_toBits h0 hlt
      exact .inr (.inr ⟨hx, _, _, _, unpack_of_finite hx.finite hx.sign hx.mantissa⟩)
    · exact .inr (.inl (unpack_of_toBits_eq_infinityBits heq))

theorem add_eq_of_unpack (h : UnpackedFloat.add Format.binary64 x.toModel.unpack y.toModel.unpack =
    z.toModel.unpack) : x + y = z := by
  apply eq_of_wordOf
  show UnpackedFloat.pack Format.binary64 (UnpackedFloat.add Format.binary64 _ _) = _
  rw [h, (Double.hasParts z).pack_eq]

theorem div_eq_of_unpack (h : UnpackedFloat.div Format.binary64 x.toModel.unpack y.toModel.unpack =
    z.toModel.unpack) : x / y = z := by
  apply eq_of_wordOf
  show UnpackedFloat.pack Format.binary64 (UnpackedFloat.div Format.binary64 _ _) = _
  rw [h, (Double.hasParts z).pack_eq]

/-- A sum is one of its operands, unless both are positive. -/
theorem IsUnsigned.add_cases (hx : IsUnsigned x) (hy : IsUnsigned y) :
    x + y = x ∨ x + y = y ∨ IsPositive x ∧ IsPositive y := by
  rcases hx.cases with h | h | ⟨hxpos, m, e, hm, h⟩
  · refine .inr (.inl (add_eq_of_unpack ?_))
    rw [h]
    rcases hy.cases with h' | h' | ⟨-, n, d, hn, h'⟩ <;> rw [h'] <;> rfl
  · refine .inl (add_eq_of_unpack ?_)
    rw [h]
    rcases hy.cases with h' | h' | ⟨-, n, d, hn, h'⟩ <;> rw [h'] <;> rfl
  · rcases hy.cases with h' | h' | ⟨hypos, -⟩
    · refine .inl (add_eq_of_unpack ?_)
      rw [h, h']
      rfl
    · refine .inr (.inl (add_eq_of_unpack ?_))
      rw [h, h']
      rfl
    · exact .inr (.inr ⟨hxpos, hypos⟩)

theorem IsUnsigned.add (hx : IsUnsigned x) (hy : IsUnsigned y) : IsUnsigned (x + y) := by
  rcases hx.add_cases hy with h | h | ⟨hxpos, hypos⟩
  · rw [h]
    exact hx
  · rw [h]
    exact hy
  · exact (hxpos.rounds_add hypos).le_infinityBits

theorem IsUnsigned.div (hx : IsUnsigned x) (hy : IsPositive y) : IsUnsigned (x / y) := by
  have hself : x.toModel.unpack = .zero .positive ∨ x.toModel.unpack = .infinity .positive →
      x / y = x := by
    intro h
    apply div_eq_of_unpack
    rw [unpack_of_finite hy.finite hy.sign hy.mantissa]
    rcases h with h | h <;> rw [h] <;> rfl
  rcases hx.cases with h | h | ⟨hxpos, -⟩
  · rw [hself (.inl h)]
    exact hx
  · rw [hself (.inr h)]
    exact hx
  · exact (hxpos.rounds_div hy).le_infinityBits

theorem unpack_zero_double : (0.0 : Float).toModel.unpack = .zero .positive :=
  unpack_of_toBits_eq_zero (by decide +kernel)

/-- Zero adds nothing. -/
theorem IsUnsigned.add_zero (h : IsUnsigned x) : x + 0.0 = x := by
  apply add_eq_of_unpack
  rw [unpack_zero_double]
  rcases h.cases with h | h | ⟨-, m, e, hm, h⟩ <;> rw [h] <;> rfl

theorem IsPositive.zero_div (h : IsPositive x) : 0.0 / x = 0.0 := by
  apply div_eq_of_unpack
  rw [unpack_zero_double, unpack_of_finite h.finite h.sign h.mantissa]
  rfl

theorem IsUnsigned.beq_self (h : IsUnsigned x) : (x == x) = true := by
  show x.toModel.unpack.beq x.toModel.unpack = true
  rcases h.cases with h | h | ⟨-, m, e, hm, h⟩
  · rw [h]
    rfl
  · rw [h]
    rfl
  · rw [h]
    show (some ((compare e e).then (compare m m)) == some .eq) = true
    rw [Int.compare_eq_eq.2 rfl, Nat.compare_eq_eq.2 rfl]
    rfl

theorem IsPositive.isInf (h : IsPositive x) : x.isInf = false := by
  show x.toModel.unpack.isInf = false
  rw [unpack_of_finite h.finite h.sign h.mantissa]
  rfl

/-! ## Integers -/

/-- A number not below the least positive double is not rounded to zero. -/
theorem Rounds.pos (h : Rounds q b) (hq : 2 ^ (-1074 : ℤ) ≤ q) : 0 < b := by
  obtain ⟨s, n, hs, hn, rfl⟩ := h
  have hle : (1 : ℚ) ≤ q * 2 ^ s := by
    rcases lt_or_eq_of_le hs.le_finest with hlt | rfl
    · exact le_trans (by norm_num) (hs.ge hlt)
    · calc
        (1 : ℚ) = 2 ^ (-1074 : ℤ) * 2 ^ finestScale := by
          rw [two_zpow_mul]
          rfl
        _ ≤ q * 2 ^ finestScale := mul_le_mul_of_nonneg_right hq (by positivity)
  have hn1 : 1 ≤ n := hn.le_of_le (by exact_mod_cast hle)
  unfold wordAt infinityBits
  omega

/-- A number is rounded to infinity only from half a step above the largest double on. -/
theorem Rounds.lt_infinityBits (h : Rounds q b) (hq : q < 2 ^ 1024 - 2 ^ 970) : b < infinityBits := by
  obtain ⟨s, n, hs, hn, rfl⟩ := h
  have hscale : -971 ≤ s := by
    by_contra hc
    have hge := hs.ge (by unfold finestScale; omega)
    have hpow : (2 : ℚ) ^ s ≤ 2 ^ (-972 : ℤ) := zpow_le_zpow_right₀ (by norm_num) (by omega)
    have := calc
      q * 2 ^ s < 2 ^ (1024 : ℤ) * 2 ^ s :=
        mul_lt_mul_of_pos_right (lt_of_lt_of_le hq (sub_le_self _ (by positivity))) (by positivity)
      _ ≤ 2 ^ (1024 : ℤ) * 2 ^ (-972 : ℤ) := mul_le_mul_of_nonneg_left hpow (by positivity)
      _ = 2 ^ 52 := by
        rw [two_zpow_mul]
        rfl
    exact absurd hge (not_le.2 this)
  have hmantissa : n ≤ 2 ^ 53 := hn.le_of_lt (by exact_mod_cast hs.lt)
  rcases Int.lt_or_eq_of_le hscale with hlt | rfl
  · unfold wordAt finestScale hiddenBit infinityBits
    omega
  · -- at the coarsest scale a mantissa rounded up to one bit more would be the word of infinity
    have hhalf := calc
      q * 2 ^ (-971 : ℤ) < (2 ^ (1024 : ℤ) - 2 ^ (970 : ℤ)) * 2 ^ (-971 : ℤ) :=
        mul_lt_mul_of_pos_right hq (by positivity)
      _ = 2 ^ (1024 + -971 : ℤ) - 2 ^ (970 + -971 : ℤ) := by
        rw [sub_mul, two_zpow_mul, two_zpow_mul]
      _ = 2 ^ 53 - 1 / 2 := by norm_num
    have hge := hn.ge
    have hcast : (n : ℚ) < 2 ^ 53 := by linarith
    have hlt : n < 2 ^ 53 := by exact_mod_cast hcast
    unfold wordAt finestScale hiddenBit infinityBits
    omega

/-- The double of a positive integer is finite and above zero, unless the integer is so large that it
is rounded to infinity. -/
theorem isPositive_ofInt {r : ℤ} (h0 : 0 < r) (hr : r < 2 ^ 1024 - 2 ^ 970) :
    IsPositive (Float.ofInt r) := by
  lift r to ℕ using h0.le
  have hround := Decimal.rounds_toFloat (d := ⟨r, 0⟩) (by exact_mod_cast h0)
  have hvalue : (Decimal.mk r 0).value = r := by
    unfold Decimal.value
    rw [zpow_zero, mul_one]
  rw [hvalue] at hround
  have hone : (1 : ℚ) ≤ r := by exact_mod_cast h0
  have hlt : (r : ℚ) < 2 ^ 1024 - 2 ^ 970 := by exact_mod_cast hr
  refine isPositive_of_toBits (x := Float.ofInt r) (hround.pos ?_) (hround.lt_infinityBits hlt)
  exact le_trans (zpow_le_one_of_nonpos₀ (by norm_num) (by norm_num)) hone

/-! ## Numbers that are doubles -/

/-- A mantissa at its scale is rounded to the double of these parts. -/
theorem ofFloat_of_rounds {s : ℤ} {n : ℕ} (h : Rounds (n * 2 ^ (-s)) x.toBits.toNat)
    (hpos : 0 < n) (hlt : n < 2 ^ 53) (hge : s < finestScale → 2 ^ 52 ≤ n) (hs : s ≤ finestScale)
    (hlow : -971 ≤ s) : IsPositive x ∧ ofFloat x = ⟨n, -s⟩ := by
  have hfin : (finestScale - s).toNat * hiddenBit + n < infinityBits := by
    unfold finestScale hiddenBit infinityBits
    omega
  have hword : x.toBits.toNat = (finestScale - s).toNat * hiddenBit + n :=
    (h.unique (rounds_wordAt hs hlt hge)).trans (min_eq_right hfin.le)
  obtain ⟨hfinite, hsign, hparts⟩ := ofFloat_of_word hs hlt hge hword (hword ▸ hfin)
  refine ⟨⟨hfinite, hsign, ?_⟩, hparts⟩
  rw [hparts]
  exact hpos

/-- A power of two in the range of doubles is rounded to itself. -/
theorem value_of_rounds_two_zpow {e : ℤ} (h : Rounds (2 ^ e) x.toBits.toNat) (hlow : -1074 ≤ e)
    (hhigh : e ≤ 1023) : IsPositive x ∧ (ofFloat x).value = 2 ^ e := by
  -- the scale at which the power fills the mantissa, or the finest one
  obtain ⟨s, hs⟩ : ∃ s, s = min (52 - e) finestScale := ⟨_, rfl⟩
  unfold finestScale at hs
  obtain ⟨k, hk⟩ : ∃ k : ℕ, s + e = k := Int.eq_ofNat_of_zero_le (by omega)
  have hvalue : ((2 ^ k : ℕ) : ℚ) * 2 ^ (-s) = 2 ^ e := by
    rw [Nat.cast_pow, Nat.cast_ofNat, ← zpow_natCast, two_zpow_mul, ← hk, add_neg_cancel_comm]
  have hlt : 2 ^ k < 2 ^ 53 := Nat.pow_lt_pow_right (by decide) (by omega)
  have hge : s < finestScale → 2 ^ 52 ≤ 2 ^ k := by
    unfold finestScale
    intro hfiner
    exact Nat.pow_le_pow_right two_pos (by omega)
  have hle : s ≤ finestScale := by
    unfold finestScale
    omega
  rw [← hvalue] at h
  obtain ⟨hx, hparts⟩ := ofFloat_of_rounds h (Nat.pow_pos two_pos) hlt hge hle (by omega)
  refine ⟨hx, ?_⟩
  rw [hparts]
  exact hvalue

theorem eq_zero_of_rounds_zero (h : Rounds q x.toBits.toNat) (h0 : Rounds q 0) : x = 0.0 := by
  have hx : x.toBits.toNat = (0.0 : Float).toBits.toNat := by
    rw [h.unique h0]
    decide +kernel
  exact eq_of_toBits (UInt64.toNat_inj.1 hx)

end Binary

end MatrixCalc
