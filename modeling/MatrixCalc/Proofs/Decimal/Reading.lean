import MatrixCalc.Decimal.Shortest
import MatrixCalc.Proofs.Decimal.Operations

/-!
# Decimals are read as the nearest doubles

1. The reader multiplies or divides by a power of ten, with a table of exact powers where mantissa
   and power are doubles (`natCast_double`, `powerOfTen_double`), and otherwise with naturals; very
   large and very small decimals are told by their exponents (`rounds_ofScientific`).
2. Either way a decimal is read as the double nearest to it (`rounds_toFloat`).
3. So decimals of the same value are read alike (`toFloat_congr`), and the exact value of a double is
   read as that double (`toFloat_exact`).
-/

namespace MatrixCalc

open Float.Model Float.Model.UnpackedFloat

namespace Binary

variable {q : ℚ} {b : ℕ}

/-! ## Very large and very small numbers -/

theorem Rounds.eq_infinityBits (h : Rounds q b) (hq : 2 ^ (1024 : ℤ) ≤ q) : b = infinityBits := by
  obtain ⟨s, n, hs, hn, rfl⟩ := h
  have hscale : s ≤ -972 := by
    by_contra hc
    have hpow : (2 : ℚ) ^ (-971 : ℤ) ≤ 2 ^ s := zpow_le_zpow_right₀ (by norm_num) (by omega)
    have hq0 : 0 ≤ q := le_trans (by positivity) hq
    have := calc
      (2 : ℚ) ^ 53 = 2 ^ (1024 : ℤ) * 2 ^ (-971 : ℤ) := by
        rw [two_zpow_mul]
        rfl
      _ ≤ q * 2 ^ s := mul_le_mul hq hpow (by positivity) hq0
    exact absurd hs.lt (not_lt.2 this)
  have hfull : 2 ^ 52 ≤ n := hn.le_of_le (by
    rw [Nat.cast_pow, Nat.cast_ofNat]
    refine hs.ge ?_
    unfold finestScale
    omega)
  unfold wordAt finestScale hiddenBit infinityBits
  omega

theorem rounds_zero (h0 : 0 ≤ q) (hq : q < 2 ^ (-1075 : ℤ)) : Rounds q 0 := by
  have hlt : q * 2 ^ finestScale < 1 / 2 := by
    calc
      q * 2 ^ finestScale < 2 ^ (-1075 : ℤ) * 2 ^ finestScale :=
        mul_lt_mul_of_pos_right hq (by positivity)
      _ = 2 ^ (-1 : ℤ) := two_zpow_mul _ _
      _ = 1 / 2 := by norm_num
  have hge : 0 ≤ q * 2 ^ finestScale := by positivity
  refine ⟨finestScale, 0, ⟨le_refl _, ?_, fun h => absurd h (lt_irrefl _)⟩, ?_, rfl⟩
  · exact hlt.trans (by norm_num)
  · generalize q * 2 ^ finestScale = z at hlt hge
    exact ⟨by push_cast; linarith, by push_cast; linarith, fun _ => rfl⟩

/-! ## Scientific notation -/

theorem exists_rounds_natCast {n : ℕ} (hn : 0 < n) : ∃ b, Rounds n b := by
  have h := rounds_div 0 0 hn one_pos
  rw [zpow_zero, mul_one, mul_one, Nat.cast_one, div_one] at h
  exact ⟨_, h⟩

theorem ten_zpow_eq {e : ℤ} (he : 0 ≤ e) : (10 : ℚ) ^ e = (10 ^ e.toNat : ℕ) := by
  obtain ⟨n, rfl⟩ := Int.eq_ofNat_of_zero_le he
  rw [zpow_natCast, Int.toNat_natCast, Nat.cast_pow, Nat.cast_ofNat]

theorem rounds_infinity {m : ℕ} {e : ℤ} (hm : 0 < m) (he : 2048 < e) :
    Rounds (m * 10 ^ e) infinityBits := by
  have hm1 : (1 : ℚ) ≤ m := by exact_mod_cast hm
  have hten : (2 : ℚ) ^ (1024 : ℤ) ≤ 10 ^ e := by
    calc
      (2 : ℚ) ^ (1024 : ℤ) ≤ 2 ^ e := zpow_le_zpow_right₀ (by norm_num) (by omega)
      _ ≤ 10 ^ e := zpow_le_zpow_left₀ (by omega) (by norm_num) (by norm_num)
  have hlarge : (2 : ℚ) ^ (1024 : ℤ) ≤ m * 10 ^ e :=
    hten.trans (le_mul_of_one_le_left (by positivity) hm1)
  have hpos : 0 < m * 10 ^ e.toNat := Nat.mul_pos hm (Nat.pow_pos (by decide))
  obtain ⟨b, hb⟩ := exists_rounds_natCast hpos
  rw [Nat.cast_mul, ← ten_zpow_eq (by omega)] at hb
  rw [← hb.eq_infinityBits hlarge]
  exact hb

theorem rounds_vanishing {m : ℕ} {e : ℤ} (he : e < -(2048 + m.log2)) : Rounds (m * 10 ^ e) 0 := by
  have hm : (m : ℚ) ≤ 2 ^ ((m.log2 : ℤ) + 1) := by exact_mod_cast Nat.lt_log2_self.le
  have hten : (10 : ℚ) ^ e ≤ 2 ^ e := by
    obtain ⟨n, hn⟩ : ∃ n : ℕ, e = -n := ⟨(-e).toNat, by omega⟩
    rw [hn, zpow_neg, zpow_neg, zpow_natCast, zpow_natCast]
    exact inv_anti₀ (by positivity) (pow_le_pow_left₀ (by norm_num) (by norm_num) n)
  refine rounds_zero (by positivity) ?_
  calc
    (m : ℚ) * 10 ^ e ≤ 2 ^ ((m.log2 : ℤ) + 1) * 2 ^ e :=
      mul_le_mul hm hten (by positivity) (by positivity)
    _ = 2 ^ ((m.log2 : ℤ) + 1 + e) := two_zpow_mul _ _
    _ < 2 ^ (-1075 : ℤ) := zpow_lt_zpow_right₀ (by norm_num) (by omega)

theorem rounds_ofScientific {m : ℕ} (hm : 0 < m) (e : ℤ) :
    Rounds (m * 10 ^ e) (UnpackedFloat.pack Format.binary64
      (UnpackedFloat.ofScientific Format.binary64 m e)).toNat := by
  unfold UnpackedFloat.ofScientific
  rw [dif_neg hm.ne']
  by_cases hlarge : e > 2 ^ Format.binary64.exponentBits
  · rw [if_pos hlarge]
    exact rounds_infinity hm hlarge
  rw [if_neg hlarge]
  by_cases hsmall : e < -((2 ^ Format.binary64.exponentBits : ℤ) + m.log2)
  · rw [if_pos hsmall]
    exact rounds_vanishing hsmall
  rw [if_neg hsmall]
  by_cases he : 0 ≤ e
  · rw [if_pos he]
    have hshift : 2 ^ 52 ≤ m <<< 53 := by
      rw [Nat.shiftLeft_eq]
      omega
    have h := rounds_mul (-53) 0 (by omega)
      (Nat.pow_pos (n := e.toNat) (a := 10) (by decide)) hshift
    have hm : ((m <<< 53 : ℕ) : ℚ) * 2 ^ (-53 : ℤ) = m := by
      rw [Nat.shiftLeft_eq, Nat.cast_mul, Nat.cast_pow, Nat.cast_ofNat, ← zpow_natCast, mul_assoc,
        two_zpow_mul]
      exact mul_one _
    rw [hm, zpow_zero, mul_one, ← ten_zpow_eq he] at h
    exact h
  · rw [if_neg he]
    have h := rounds_div 0 0 hm (Nat.pow_pos (n := (-e).toNat) (a := 10) (by decide))
    rw [zpow_zero, mul_one, mul_one, ← ten_zpow_eq (by omega), zpow_neg, div_inv_eq_mul] at h
    exact h

/-! ## Exact doubles -/

/-- A natural of at most 53 bits is brought to 53 bits before it is rounded. -/
theorem toNat_toFloat {n k : ℕ} (hn : 0 < n) (hk : n.log2 + k = 52) :
    n.toUInt64.toFloat.toBits.toNat = (UnpackedFloat.pack Format.binary64
      (roundWithAccuracy Format.binary64 .positive (n * 2 ^ k) (-k) .exact)).toNat := by
  have hlt : n < 2 ^ 64 := by
    have := (Nat.log2_lt (k := 53) hn.ne').1 (by omega)
    omega
  have hnat : n.toUInt64.toNat = n := UInt64.toNat_ofNat_of_lt hlt
  have htarget : Format.binary64.targetExponent (totalExponent n 0) = -k := by
    unfold totalExponent
    rw [targetExponent_binary64]
    omega
  show (UnpackedFloat.pack Format.binary64
    (UnpackedFloat.normalize Format.binary64 (n.toUInt64.toNat : ℤ) 0 .positive)).toNat = _
  rw [hnat]
  unfold UnpackedFloat.normalize
  rw [show compare (n : ℤ) 0 = .gt from Int.compare_eq_gt.2 (by omega)]
  dsimp only
  rw [Int.toNat_natCast]
  unfold UnpackedFloat.round decreaseExponent
  dsimp only
  rw [htarget, sub_neg_eq_add, zero_add, Int.toNat_natCast, zero_sub, Nat.shiftLeft_eq]

/-- A natural below `2 ^ 53` is a double. -/
theorem natCast_double {n : ℕ} (hn : 0 < n) (hlt : n < 2 ^ 53) :
    IsPositive n.toUInt64.toFloat ∧ 2 ^ 52 ≤ (ofFloat n.toUInt64.toFloat).mantissa ∧
      (ofFloat n.toUInt64.toFloat).value = n := by
  have hlog : n.log2 ≤ 52 := Nat.le_of_lt_succ ((Nat.log2_lt hn.ne').2 hlt)
  obtain ⟨k, hk⟩ : ∃ k : ℕ, n.log2 + k = 52 := ⟨52 - n.log2, by omega⟩
  have hge : 2 ^ 52 ≤ n * 2 ^ k := by
    rw [← hk, pow_add]
    exact Nat.mul_le_mul_right _ (Nat.log2_self_le hn.ne')
  have hlt' : n * 2 ^ k < 2 ^ 53 := by
    calc
      n * 2 ^ k < 2 ^ (n.log2 + 1) * 2 ^ k :=
        Nat.mul_lt_mul_of_pos_right Nat.lt_log2_self (by positivity)
      _ = 2 ^ (n.log2 + 1 + k) := (pow_add 2 _ k).symm
      _ = 2 ^ 53 := by congr 1; omega
  -- The mantissa is not shifted and not rounded, so its word is known.
  have hword : n.toUInt64.toFloat.toBits.toNat = wordAt k (n * 2 ^ k) := by
    have h := rounds_roundWithAccuracy (e := -(k : ℤ)) (holds_exact (n * 2 ^ k))
      (.inl ((Nat.le_log2 (by omega)).2 hge))
    rw [← toNat_toFloat hn hk] at h
    exact h.unique (rounds_wordAt (by unfold finestScale; omega) hlt' fun _ => hge)
  have hsmall : (finestScale - k).toNat * hiddenBit + n * 2 ^ k < infinityBits := by
    unfold finestScale hiddenBit infinityBits
    omega
  have hword' : n.toUInt64.toFloat.toBits.toNat = (finestScale - k).toNat * hiddenBit + n * 2 ^ k :=
    hword.trans (min_eq_right hsmall.le)
  obtain ⟨hfin, hsign, hof⟩ := ofFloat_of_word (by unfold finestScale; omega) hlt' (fun _ => hge)
    hword' (hword' ▸ hsmall)
  refine ⟨⟨hfin, hsign, ?_⟩, ?_, ?_⟩
  · rw [hof]
    exact lt_of_lt_of_le (by norm_num) hge
  · rw [hof]
    exact hge
  · rw [hof]
    unfold value
    rw [Nat.cast_mul, Nat.cast_pow, Nat.cast_ofNat, ← zpow_natCast, mul_assoc, two_zpow_mul,
      add_neg_cancel, zpow_zero, mul_one]

/-- The table of powers of ten is exact. -/
theorem powersOfTen_exact (i : Fin Float.exactlyRepresentablePowersOfTen.size) :
    exponentField Float.exactlyRepresentablePowersOfTen[i] ≠ 2047 ∧
      isNegative Float.exactlyRepresentablePowersOfTen[i] = false ∧
      2 ^ 52 ≤ (ofFloat Float.exactlyRepresentablePowersOfTen[i]).mantissa ∧
      (ofFloat Float.exactlyRepresentablePowersOfTen[i]).mantissa *
          2 ^ (ofFloat Float.exactlyRepresentablePowersOfTen[i]).exponent.toNat =
        10 ^ i.val * 2 ^ (-(ofFloat Float.exactlyRepresentablePowersOfTen[i]).exponent).toNat := by
  revert i
  decide

theorem value_eq_of_mul_pow {b : Binary} {n : ℕ}
    (h : b.mantissa * 2 ^ b.exponent.toNat = n * 2 ^ (-b.exponent).toNat) : b.value = n := by
  have hq : (b.mantissa : ℚ) * 2 ^ b.exponent.toNat = n * 2 ^ (-b.exponent).toNat := by
    exact_mod_cast h
  have hp : (2 : ℚ) ^ (-b.exponent).toNat ≠ 0 := by positivity
  have he : (2 : ℚ) ^ b.exponent * 2 ^ (-b.exponent).toNat = 2 ^ b.exponent.toNat := by
    rw [← zpow_natCast, ← zpow_natCast, two_zpow_mul]
    congr 1
    omega
  unfold value
  rw [← mul_left_inj' hp, mul_assoc, he, hq]


theorem powerOfTen_double {e : ℕ} (h : e < Float.exactlyRepresentablePowersOfTen.size) :
    IsPositive Float.exactlyRepresentablePowersOfTen[e] ∧
      (ofFloat Float.exactlyRepresentablePowersOfTen[e]).value = 10 ^ e := by
  obtain ⟨hfin, hsign, hfull, hvalue⟩ := powersOfTen_exact ⟨e, h⟩
  refine ⟨⟨hfin, hsign, lt_of_lt_of_le (by norm_num) hfull⟩, ?_⟩
  have hv := value_eq_of_mul_pow hvalue
  rw [Nat.cast_pow, Nat.cast_ofNat] at hv
  exact hv

end Binary

/-! ## Decimals -/

namespace Decimal

open Binary

/-- The number of a decimal. -/
def value (d : Decimal) : ℚ := d.digits * 10 ^ d.exp

/-- **Reading.** A positive decimal is read as the double nearest to it. -/
theorem rounds_toFloat {d : Decimal} (hd : 0 < d.digits) : Rounds d.value d.toFloat.toBits.toNat := by
  unfold toFloat Float.ofScientific value
  split
  · rename_i h
    obtain ⟨hpos, hfull, hval⟩ := natCast_double hd h.1
    have hsize : d.exp.natAbs < Float.exactlyRepresentablePowersOfTen.size :=
      Nat.lt_succ_of_le h.2
    obtain ⟨hpow, hten⟩ := powerOfTen_double hsize
    dsimp only
    split
    · rename_i hneg
      rw [decide_eq_true_eq] at hneg
      have hr := hpos.rounds_div hpow
      have hexp : (10 : ℚ) ^ d.exp = (10 ^ d.exp.natAbs)⁻¹ := by
        rw [← zpow_natCast, ← zpow_neg]
        congr 1
        omega
      rw [hval, hten, div_eq_mul_inv, ← hexp] at hr
      exact hr
    · rename_i hneg
      rw [decide_eq_true_eq] at hneg
      have hr := hpos.rounds_mul hpow hfull
      have hexp : (10 : ℚ) ^ d.exp = 10 ^ d.exp.natAbs := by
        rw [← zpow_natCast]
        congr 1
        omega
      rw [hval, hten, ← hexp] at hr
      exact hr
  · have hexp : (if decide (d.exp < 0) = true then Int.negOfNat d.exp.natAbs
        else Int.ofNat d.exp.natAbs) = d.exp := by
      split
      · rename_i hneg
        rw [decide_eq_true_eq] at hneg
        rw [Int.negOfNat_eq, Int.ofNat_eq_natCast]
        omega
      · rename_i hneg
        rw [decide_eq_true_eq] at hneg
        rw [Int.ofNat_eq_natCast]
        omega
    dsimp only
    rw [hexp]
    exact rounds_ofScientific hd d.exp

theorem unpack_zero : (Nat.toUInt64 0).toFloat.toModel.unpack = .zero .positive := rfl

/-- A decimal without digits is read as zero. -/
theorem toBits_toFloat_zero (e : ℤ) : (Decimal.mk 0 e).toFloat.toBits.toNat = 0 := by
  unfold toFloat Float.ofScientific
  split
  · rename_i h
    have hsize : e.natAbs < Float.exactlyRepresentablePowersOfTen.size := Nat.lt_succ_of_le h.2
    obtain ⟨hpow, -⟩ := powerOfTen_double hsize
    have hunpack := unpack_of_finite hpow.finite hpow.sign hpow.mantissa
    dsimp only
    split
    · show (UnpackedFloat.pack Format.binary64 (UnpackedFloat.div Format.binary64
        (Nat.toUInt64 0).toFloat.toModel.unpack
        Float.exactlyRepresentablePowersOfTen[e.natAbs].toModel.unpack)).toNat = 0
      rw [unpack_zero, hunpack]
      rfl
    · show (UnpackedFloat.pack Format.binary64 (UnpackedFloat.mul Format.binary64
        (Nat.toUInt64 0).toFloat.toModel.unpack
        Float.exactlyRepresentablePowersOfTen[e.natAbs].toModel.unpack)).toNat = 0
      rw [unpack_zero, hunpack]
      rfl
  · rfl

theorem value_pos {d : Decimal} (h : 0 < d.digits) : 0 < d.value := by
  have hd : (0 : ℚ) < d.digits := by exact_mod_cast h
  exact mul_pos hd (by positivity)

theorem digits_pos_of_value {d : Decimal} (h : 0 < d.value) : 0 < d.digits := by
  rcases Nat.eq_zero_or_pos d.digits with h0 | h0
  · unfold value at h
    rw [h0, Nat.cast_zero, zero_mul] at h
    exact absurd h (lt_irrefl 0)
  · exact h0

/-- Decimals of the same value are read alike. -/
theorem toFloat_congr {c d : Decimal} (h : c.value = d.value) : c.toFloat = d.toFloat := by
  apply eq_of_toBits
  apply UInt64.toNat_inj.1
  rcases Nat.eq_zero_or_pos c.digits with hc | hc
  · have hd : d.digits = 0 := by
      by_contra hne
      have hpos := value_pos (Nat.pos_of_ne_zero hne)
      rw [← h] at hpos
      exact absurd (digits_pos_of_value hpos) (by omega)
    obtain ⟨m, e⟩ := c
    obtain ⟨n, f⟩ := d
    cases hc
    cases hd
    rw [toBits_toFloat_zero, toBits_toFloat_zero]
  · have hd : 0 < d.digits := digits_pos_of_value (h ▸ value_pos hc)
    have hr := rounds_toFloat hc
    rw [h] at hr
    exact hr.unique (rounds_toFloat hd)

end Decimal

namespace Binary

theorem value_exact (b : Binary) : b.exact.value = b.value := by
  unfold exact value
  split
  · rename_i he
    obtain ⟨n, hn⟩ := Int.eq_ofNat_of_zero_le he
    show ((b.mantissa * 2 ^ b.exponent.toNat : ℕ) : ℚ) * 10 ^ (0 : ℤ) = _
    rw [hn, zpow_zero, mul_one, zpow_natCast, Int.toNat_natCast]
    push_cast
    rfl
  · rename_i he
    obtain ⟨n, hn⟩ : ∃ n : ℕ, b.exponent = -n := ⟨(-b.exponent).toNat, by omega⟩
    show ((b.mantissa * 5 ^ b.exponent.natAbs : ℕ) : ℚ) * 10 ^ b.exponent = _
    rw [hn, Int.natAbs_neg, Int.natAbs_natCast, zpow_neg, zpow_neg, zpow_natCast, zpow_natCast,
      show (10 : ℚ) = 5 * 2 by norm_num, mul_pow, mul_inv]
    push_cast
    rw [mul_assoc, mul_inv_cancel_left₀ (by positivity)]

/-- The exact value of a positive double is read as that double. -/
theorem IsPositive.toFloat_exact {x : Float} (h : IsPositive x) : (ofFloat x).exact.toFloat = x := by
  have hpos : 0 < (ofFloat x).exact.digits := by
    apply Decimal.digits_pos_of_value
    rw [value_exact]
    have hm : (0 : ℚ) < (ofFloat x).mantissa := by exact_mod_cast h.mantissa
    exact mul_pos hm (by positivity)
  have hd := Decimal.rounds_toFloat hpos
  rw [value_exact] at hd
  exact eq_of_toBits (UInt64.toNat_inj.1 (hd.unique h.rounds))

end Binary

end MatrixCalc
