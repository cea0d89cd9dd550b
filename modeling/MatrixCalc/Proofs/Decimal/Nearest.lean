import Mathlib.Algebra.Order.Field.Power
import Mathlib.Algebra.Order.Field.Rat
import Mathlib.Tactic.Positivity
import Mathlib.Tactic.Ring
import Mathlib.Tactic.Linarith
import MatrixCalc.Proofs.Decimal.Word

/-!
# The double nearest to a number

A positive number is rounded to a double at its scale: the power of two that makes it fill the
mantissa, or the finest one that doubles have. There it is rounded to the nearest natural, a half
going to the even one, and scale and natural are the word of the double. `Rounds` states this without
an algorithm, and a number rounds to one word only (`Rounds.unique`).

The operations on doubles round a mantissa with two bits about what was cut off behind it. They give
the word of `Rounds` (`rounds_roundWithAccuracy`):

1. mantissa and bits hold a number (`Holds`), and keep holding it when shifted (`Holds.shiftRight`);
2. rounded by the bits, the mantissa is the nearest natural (`Holds.isNearest`);
3. the shift to the target exponent is the shift to the scale (`isScale_shift`);
4. a mantissa that is rounded up to one bit more is shifted once again, and packing adds it to the
   exponent field (`toNat_pack_shift`).
-/

namespace MatrixCalc

open Float.Model Float.Model.UnpackedFloat

namespace Binary

/-! ## Rounding -/

/-- At the scale the number fills the mantissa; only the finest scale may leave it unfilled. -/
structure IsScale (q : ℚ) (s : ℤ) : Prop where
  le_finest : s ≤ finestScale
  lt : q * 2 ^ s < 2 ^ 53
  ge : s < finestScale → 2 ^ 52 ≤ q * 2 ^ s

/-- No natural is nearer to the number, and of two that are equally near this is the even one. -/
structure IsNearest (q : ℚ) (n : ℕ) : Prop where
  le : 2 * q ≤ 2 * n + 1
  ge : 2 * n ≤ 2 * q + 1
  even : 2 * q = 2 * n + 1 ∨ 2 * n = 2 * q + 1 → n % 2 = 0

/-- The word of a mantissa at a scale. -/
def wordAt (s : ℤ) (n : ℕ) : ℕ := min infinityBits ((finestScale - s).toNat * hiddenBit + n)

/-- The number rounds to the double with the given word. -/
def Rounds (q : ℚ) (b : ℕ) : Prop := ∃ s n, IsScale q s ∧ IsNearest (q * 2 ^ s) n ∧ b = wordAt s n

variable {q x : ℚ} {s s' : ℤ} {m n n' b b' : ℕ}

theorem two_zpow_mul (a b : ℤ) : (2 : ℚ) ^ a * 2 ^ b = 2 ^ (a + b) :=
  (zpow_add₀ (by norm_num) a b).symm

theorem IsScale.le_of_isScale (h : IsScale q s) (h' : IsScale q s') : s' ≤ s := by
  by_contra hlt
  rw [Int.not_le] at hlt
  have hge := h.ge (lt_of_lt_of_le hlt h'.le_finest)
  have hq : 0 ≤ q := by
    by_contra hneg
    have : q * 2 ^ s < 0 := mul_neg_of_neg_of_pos (not_le.1 hneg) (by positivity)
    linarith
  have hpow : (2 : ℚ) ^ (s + 1) ≤ 2 ^ s' := zpow_le_zpow_right₀ (by norm_num) hlt
  have hdouble : (2 : ℚ) ^ (s + 1) = 2 ^ s * 2 := by rw [← two_zpow_mul, zpow_one]
  have := calc
    (2 : ℚ) ^ 53 = 2 ^ 52 * 2 := by norm_num
    _ ≤ q * 2 ^ s * 2 := by linarith
    _ = q * 2 ^ (s + 1) := by rw [hdouble, mul_assoc]
    _ ≤ q * 2 ^ s' := mul_le_mul_of_nonneg_left hpow hq
  exact absurd h'.lt (not_lt.2 this)

theorem IsScale.unique (h : IsScale q s) (h' : IsScale q s') : s = s' :=
  le_antisymm (h'.le_of_isScale h) (h.le_of_isScale h')

theorem IsNearest.le_of_isNearest (h : IsNearest q n) (h' : IsNearest q n') : n' ≤ n := by
  by_contra hlt
  rw [Nat.not_le] at hlt
  have hle : (n : ℚ) + 1 ≤ n' := by exact_mod_cast hlt
  have h1 := h.le
  have h2 := h'.ge
  have hn : n % 2 = 0 := h.even (.inl (by linarith))
  have hn' : n' % 2 = 0 := h'.even (.inr (by linarith))
  have heq : (n' : ℚ) = n + 1 := by linarith
  have : n' = n + 1 := by exact_mod_cast heq
  omega

theorem IsNearest.unique (h : IsNearest q n) (h' : IsNearest q n') : n = n' :=
  le_antisymm (h'.le_of_isNearest h) (h.le_of_isNearest h')

theorem IsNearest.le_of_lt {k : ℕ} (h : IsNearest q n) (hq : q < k) : n ≤ k := by
  have hge := h.ge
  have hlt : (n : ℚ) < k + 1 := by linarith
  exact Nat.le_of_lt_succ (by exact_mod_cast hlt)

theorem IsNearest.le_of_le {k : ℕ} (h : IsNearest q n) (hq : k ≤ q) : k ≤ n := by
  have hle := h.le
  have hlt : (k : ℚ) < n + 1 := by linarith
  exact Nat.le_of_lt_succ (by exact_mod_cast hlt)

theorem Rounds.unique (h : Rounds q b) (h' : Rounds q b') : b = b' := by
  obtain ⟨s, n, hs, hn, rfl⟩ := h
  obtain ⟨s', n', hs', hn', rfl⟩ := h'
  cases hs.unique hs'
  cases hn.unique hn'
  rfl

theorem isNearest_natCast (n : ℕ) : IsNearest n n := by
  refine ⟨by linarith, by linarith, ?_⟩
  rintro (h | h)
  · linarith
  · linarith

/-- A mantissa at its scale is rounded to itself. -/
theorem rounds_wordAt (hs : s ≤ finestScale) (hlt : n < 2 ^ 53) (hge : s < finestScale → 2 ^ 52 ≤ n) :
    Rounds (n * 2 ^ (-s)) (wordAt s n) := by
  have hvalue : (n : ℚ) * 2 ^ (-s) * 2 ^ s = n := by
    rw [mul_assoc, two_zpow_mul, neg_add_cancel, zpow_zero, mul_one]
  refine ⟨s, n, ⟨hs, ?_, ?_⟩, ?_, rfl⟩
  · rw [hvalue]
    exact_mod_cast hlt
  · intro hfiner
    rw [hvalue]
    exact_mod_cast hge hfiner
  · rw [hvalue]
    exact isNearest_natCast n

/-! ## Mantissas with residual bits -/

/-- Mantissa and bits hold the number: the mantissa is its whole part, and the bits tell whether the
remainder reaches a half and whether it is neither nothing nor a half. -/
def Holds (em : ExtendedMantissa) (x : ℚ) : Prop :=
  ∃ r : ℚ, x = em.mantissa + r ∧ 0 ≤ r ∧ r < 1 ∧
    (em.roundBit = true ↔ 1 ≤ 2 * r) ∧ (em.stickyBit = false ↔ r = 0 ∨ 2 * r = 1)

theorem holds_exact (m : ℕ) : Holds (.ofMantissaAndAccuracy m .exact) m := by
  refine ⟨0, (add_zero _).symm, le_refl _, zero_lt_one, ?_, ?_⟩
  · exact iff_of_false Bool.noConfusion (by norm_num)
  · exact iff_of_true rfl (.inl rfl)

theorem Holds.shiftRightOne {em : ExtendedMantissa} (h : Holds em x) :
    Holds em.shiftRightOne (x / 2) := by
  obtain ⟨r, rfl, h0, h1, hround, hsticky⟩ := h
  have hdiv : (em.mantissa : ℚ) = 2 * (em.mantissa / 2 : ℕ) + (em.mantissa % 2 : ℕ) := by
    exact_mod_cast (Nat.div_add_mod em.mantissa 2).symm
  have hclear : (em.roundBit || em.stickyBit) = false ↔ r = 0 := by
    rw [Bool.or_eq_false_iff, hsticky, ← Bool.not_eq_true, hround]
    constructor
    · rintro ⟨hlt, h | h⟩
      · exact h
      · exact absurd h.ge hlt
    · rintro rfl
      exact ⟨by norm_num, .inl rfl⟩
  -- The bit that is shifted out is the half of the new remainder.
  refine ⟨((em.mantissa % 2 : ℕ) + r) / 2, ?_, ?_, ?_, ?_, ?_⟩
  · show (em.mantissa + r) / 2 = (em.mantissa / 2 : ℕ) + ((em.mantissa % 2 : ℕ) + r) / 2
    rw [hdiv]
    ring
  · positivity
  · have : ((em.mantissa % 2 : ℕ) : ℚ) ≤ 1 := by exact_mod_cast Nat.le_of_lt_succ (Nat.mod_lt _ two_pos)
    linarith
  · show (em.mantissa % 2 != 0) = true ↔ _
    rw [bne_iff_ne]
    rcases Nat.mod_two_eq_zero_or_one em.mantissa with hm | hm
    · rw [hm]
      exact iff_of_false (by omega) (by push_cast; linarith)
    · rw [hm]
      exact iff_of_true (by omega) (by push_cast; linarith)
  · show (em.roundBit || em.stickyBit) = false ↔ _
    rw [hclear]
    rcases Nat.mod_two_eq_zero_or_one em.mantissa with hm | hm
    · rw [hm]
      push_cast
      constructor
      · intro h
        exact .inl (by linarith)
      · rintro (h | h)
        · linarith
        · linarith
    · rw [hm]
      push_cast
      constructor
      · intro h
        exact .inr (by linarith)
      · rintro (h | h)
        · linarith
        · linarith

theorem Holds.shiftRight {em : ExtendedMantissa} (h : Holds em x) (k : ℕ) :
    Holds (em >>> k) (x / 2 ^ k) := by
  induction k with
  | zero =>
    rw [pow_zero, div_one]
    exact h
  | succ k ih =>
    rw [pow_succ, ← div_div]
    exact ih.shiftRightOne

theorem Holds.isNearest {em : ExtendedMantissa} (h : Holds em x) :
    IsNearest x em.roundedMantissa := by
  obtain ⟨r, rfl, h0, h1, hround, hsticky⟩ := h
  obtain ⟨m, round, sticky⟩ := em
  dsimp only at hround hsticky ⊢
  cases round with
  | false =>
    have hr : 2 * r < 1 := by
      by_contra hc
      exact Bool.noConfusion (hround.2 (not_lt.1 hc))
    have hval : ExtendedMantissa.roundedMantissa ⟨m, false, sticky⟩ = m := by
      cases sticky <;> rfl
    rw [hval]
    refine ⟨by linarith, by linarith, ?_⟩
    rintro (h | h)
    · linarith
    · linarith
  | true =>
    have hr : 1 ≤ 2 * r := hround.1 rfl
    cases sticky with
    | false =>
      have hhalf : 2 * r = 1 := by
        rcases hsticky.1 rfl with h | h
        · linarith
        · exact h
      show IsNearest _ (m + m % 2)
      rcases Nat.mod_two_eq_zero_or_one m with hm | hm
      · rw [hm]
        exact ⟨by push_cast; linarith, by push_cast; linarith, fun _ => hm⟩
      · rw [hm]
        exact ⟨by push_cast; linarith, by push_cast; linarith, fun _ => by omega⟩
    | true =>
      have hhalf : 2 * r ≠ 1 := by
        intro hc
        exact Bool.noConfusion (hsticky.2 (.inr hc))
      have hgt : 1 < 2 * r := lt_of_le_of_ne hr hhalf.symm
      show IsNearest _ (m + 1)
      refine ⟨by push_cast; linarith, by push_cast; linarith, ?_⟩
      push_cast
      rintro (h | h)
      · linarith
      · linarith

/-! ## The target exponent -/

/-- The exponent at which a mantissa has 53 bits, but none below the finest. -/
theorem targetExponent_binary64 (t : ℤ) :
    Format.binary64.targetExponent t = max (t - 53) (-1074) := rfl

/-- How far a mantissa is shifted to its target exponent. -/
def shiftAmount (m : ℕ) (e : ℤ) : ℕ :=
  (Format.binary64.targetExponent (totalExponent m e) - e).toNat

theorem shiftAmount_eq (m : ℕ) (e : ℤ) :
    shiftAmount m e = (max ((m.log2 : ℤ) - 52) (-1074 - e)).toNat := by
  unfold shiftAmount totalExponent
  rw [targetExponent_binary64]
  omega

theorem scale_shift (x : ℚ) (e : ℤ) (k : ℕ) : x * 2 ^ e * 2 ^ (-(e + k)) = x / 2 ^ k := by
  rw [mul_assoc, two_zpow_mul, show e + -(e + k) = -(k : ℤ) by ring, zpow_neg,
    zpow_natCast, div_eq_mul_inv]

/-- A number held with enough bits is at its scale behind the shift. -/
theorem isScale_shift {acc : Accuracy} {e : ℤ} (h : Holds (.ofMantissaAndAccuracy m acc) x)
    (hfull : 52 ≤ m.log2 ∨ e ≤ -1074) : IsScale (x * 2 ^ e) (-(e + shiftAmount m e)) := by
  have hk := shiftAmount_eq m e
  generalize shiftAmount m e = k at hk
  have hm : (ExtendedMantissa.ofMantissaAndAccuracy m acc).mantissa = m := by
    unfold ExtendedMantissa.ofMantissaAndAccuracy
    split <;> rfl
  obtain ⟨r, hx, h0, h1, -, -⟩ := h
  rw [hm] at hx
  refine ⟨by unfold finestScale; omega, ?_, ?_⟩
  · rw [scale_shift, div_lt_iff₀ (by positivity)]
    have hlt : m + 1 ≤ 2 ^ 53 * 2 ^ k := by
      calc
        m + 1 ≤ 2 ^ (m.log2 + 1) := Nat.lt_log2_self
        _ ≤ 2 ^ (53 + k) := Nat.pow_le_pow_right two_pos (by omega)
        _ = 2 ^ 53 * 2 ^ k := pow_add 2 53 k
    have hlt' : (m : ℚ) + 1 ≤ 2 ^ 53 * 2 ^ k := by exact_mod_cast hlt
    linarith
  · intro hs
    unfold finestScale at hs
    rw [scale_shift, le_div_iff₀ (by positivity)]
    have hlog : m.log2 = 52 + k := by omega
    have hm0 : m ≠ 0 := by
      rintro rfl
      rw [Nat.log2_zero] at hlog
      omega
    have hle : 2 ^ 52 * 2 ^ k ≤ m := by
      rw [← pow_add, ← hlog]
      exact Nat.log2_self_le hm0
    have hle' : (2 : ℚ) ^ 52 * 2 ^ k ≤ m := by exact_mod_cast hle
    linarith

/-! ## Words -/

/-- The number of a mantissa that has been rounded, shifted once more if it has become too long. -/
def carry (s : Sign) (n : ℕ) (e : ℤ) : UnpackedFloat :=
  let p := shiftToTargetExponent Format.binary64 n e .exact
  if h : p.1.mantissa = 0 then .zero s else .finite s p.1.mantissa p.2 (Nat.pos_of_ne_zero h)

theorem roundWithAccuracy_eq (s : Sign) (m : ℕ) (e : ℤ) (acc : Accuracy) :
    roundWithAccuracy Format.binary64 s m e acc =
      carry s (ExtendedMantissa.ofMantissaAndAccuracy m acc >>> shiftAmount m e).roundedMantissa
        (e + shiftAmount m e) := rfl

theorem carry_eq (s : Sign) {k n' : ℕ} {e : ℤ} (hk : shiftAmount n e = k)
    (hn : ((⟨n, false, false⟩ : ExtendedMantissa) >>> k).mantissa = n') :
    carry s n e =
      if h : n' = 0 then .zero s else .finite s n' (e + k) (Nat.pos_of_ne_zero h) := by
  subst hk hn
  rfl

theorem toNat_pack_carry {e : ℤ} (he : -1074 ≤ e) (hle : n ≤ 2 ^ 53)
    (hge : -1074 < e → 2 ^ 52 ≤ n) :
    (UnpackedFloat.pack Format.binary64 (carry .positive n e)).toNat = wordAt (-e) n := by
  have hk := shiftAmount_eq n e
  unfold wordAt finestScale hiddenBit infinityBits
  by_cases hlt : n < 2 ^ 53
  · have hlog : n.log2 ≤ 52 := by
      rcases Nat.eq_zero_or_pos n with rfl | hpos
      · rw [Nat.log2_zero]
        omega
      · have := (Nat.log2_lt hpos.ne').2 hlt
        omega
    have hk0 : shiftAmount n e = 0 := by omega
    have hsame : ((⟨n, false, false⟩ : ExtendedMantissa) >>> 0).mantissa = n := rfl
    rw [carry_eq .positive hk0 hsame]
    by_cases hn : n = 0
    · rw [dif_pos hn]
      show 0 = _
      omega
    · rw [dif_neg hn, toNat_pack_finite _ _ hlt (by omega) (by omega), toNat_positive]
      unfold hiddenBit infinityBits
      omega
  · have hn : n = 2 ^ 53 := by omega
    have hlog : n.log2 = 53 := by rw [hn, Nat.log2_two_pow]
    have hk1 : shiftAmount n e = 1 := by omega
    have hhalf : ((⟨n, false, false⟩ : ExtendedMantissa) >>> 1).mantissa = 2 ^ 52 := by
      rw [hn]
      rfl
    rw [carry_eq .positive hk1 hhalf, dif_neg (by decide),
      toNat_pack_finite _ _ (by decide) (by omega) (by omega), toNat_positive, hn]
    unfold hiddenBit infinityBits
    omega

/-- **Rounding.** A mantissa that holds a number with enough bits is rounded to the word of the
nearest double. -/
theorem rounds_roundWithAccuracy {acc : Accuracy} {e : ℤ}
    (h : Holds (.ofMantissaAndAccuracy m acc) x) (hfull : 52 ≤ m.log2 ∨ e ≤ -1074) :
    Rounds (x * 2 ^ e) (UnpackedFloat.pack Format.binary64
      (roundWithAccuracy Format.binary64 .positive m e acc)).toNat := by
  have hscale := isScale_shift h hfull
  have hnear := (h.shiftRight (shiftAmount m e)).isNearest
  rw [← scale_shift x e] at hnear
  refine ⟨_, _, hscale, hnear, ?_⟩
  rw [roundWithAccuracy_eq]
  refine toNat_pack_carry ?_ ?_ ?_
  · have := hscale.le_finest
    unfold finestScale at this
    omega
  · exact hnear.le_of_lt hscale.lt
  · intro he
    refine hnear.le_of_le (hscale.ge ?_)
    unfold finestScale
    omega

end Binary

end MatrixCalc
