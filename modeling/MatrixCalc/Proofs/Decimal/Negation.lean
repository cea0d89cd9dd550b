import MatrixCalc.Proofs.Decimal.Nearest

/-!
# Negation of doubles

Negation flips the sign of a double and keeps the rest, for infinities and NaN as for numbers; there is
only one NaN. So the laws of signs hold of doubles without exception:

1. `HasParts` lists the words of doubles with their parts, and negated parts are those of a word again
   (`HasParts.neg`). Hence the parts of a negated double are the negated parts (`unpack_neg`).
2. Two negations cancel (`neg_neg`), and a difference is the sum with the negated subtrahend
   (`sub_eq_add_neg`).
3. The product with minus one is the negation (`mul_neg_one`): the mantissa is multiplied by a power of
   two and shifted back, and nothing is cut off on the way.
-/

namespace MatrixCalc

open Float.Model Float.Model.UnpackedFloat

namespace Double

/-! ## Words and their parts -/

/-- The word is that of a double with the given parts. -/
inductive HasParts : BitVec 64 → UnpackedFloat → Prop where
  | notANumber : HasParts (packedNaN Format.binary64) .notANumber
  | infinity (s : Sign) : HasParts (word s (-1#11) 0#52) (.infinity s)
  | zero (s : Sign) : HasParts (word s 0#11 0#52) (.zero s)
  | subnormal (s : Sign) {f : BitVec 52} (hf : f ≠ 0#52) :
    HasParts (word s 0#11 f) (.finite s f.toNat (-1074) (toNat_pos_of_ne hf))
  | normal (s : Sign) {e : BitVec 11} (f : BitVec 52) (he : e ≠ -1#11) (h0 : e ≠ 0#11) :
    HasParts (word s e f) (.finite s (2 ^ 52 + f.toNat) ((e.toNat : ℤ) - 1075)
      (Nat.add_pos_left (by decide) _))

variable {b : BitVec 64} {u : UnpackedFloat}

theorem HasParts.unpack_eq (h : HasParts b u) : UnpackedFloat.unpack Format.binary64 b = u := by
  cases h with
  | notANumber => rfl
  | infinity s => cases s <;> rfl
  | zero s => exact unpack_zero_word s
  | subnormal s hf => exact unpack_subnormal s hf
  | normal s f he h0 => exact unpack_normal s he h0

theorem HasParts.pack_eq (h : HasParts b u) : UnpackedFloat.pack Format.binary64 u = b := by
  cases h with
  | notANumber => rfl
  | infinity s => rfl
  | zero s => rfl
  | @subnormal s f hf =>
    rw [← unpack_subnormal s hf]
    exact pack_unpack_word s f (by decide)
  | @normal s e f he h0 =>
    rw [← unpack_normal s he h0]
    exact pack_unpack_word s f he

theorem hasParts_wordOf (x : Float) : ∃ u, HasParts (wordOf x) u := by
  obtain ⟨s, e, f, h⟩ := exists_eq_word (wordOf x)
  have hexponent : @unpackExponent Format.binary64 (wordOf x) = e := by
    rw [h]
    exact unpackExponent_word s
  have hmantissa : @unpackMantissa Format.binary64 (wordOf x) = f := by
    rw [h]
    exact unpackMantissa_word s
  by_cases he : e = -1#11
  · by_cases hf : f = 0#52
    · rw [h, he, hf]
      exact ⟨_, .infinity s⟩
    · -- of all words with these fields, doubles have one
      have hnan : wordOf x = packedNaN Format.binary64 :=
        x.toModel.valid.eq_packedNaN (hexponent.trans he) (hmantissa.trans_ne hf)
      rw [hnan]
      exact ⟨_, .notANumber⟩
  · rw [h]
    by_cases h0 : e = 0#11
    · rw [h0]
      by_cases hf : f = 0#52
      · rw [hf]
        exact ⟨_, .zero s⟩
      · exact ⟨_, .subnormal s hf⟩
    · exact ⟨_, .normal s f he h0⟩

theorem hasParts (x : Float) : HasParts (wordOf x) x.toModel.unpack := by
  obtain ⟨u, h⟩ := hasParts_wordOf x
  have hu : x.toModel.unpack = u := h.unpack_eq
  rw [hu]
  exact h

/-- Parts with the other sign are those of a double, too. -/
theorem HasParts.neg (h : HasParts b u) : ∃ c, HasParts c u.neg := by
  cases h with
  | notANumber => exact ⟨_, .notANumber⟩
  | infinity s => exact ⟨_, .infinity (-s)⟩
  | zero s => exact ⟨_, .zero (-s)⟩
  | subnormal s hf => exact ⟨_, .subnormal (-s) hf⟩
  | normal s f he h0 => exact ⟨_, .normal (-s) f he h0⟩

/-- The parts of a negated double are the negated parts. -/
theorem unpack_neg (x : Float) : (-x).toModel.unpack = x.toModel.unpack.neg := by
  obtain ⟨c, hc⟩ := (hasParts x).neg
  show UnpackedFloat.unpack Format.binary64 (UnpackedFloat.pack Format.binary64 _) = _
  rw [hc.pack_eq, hc.unpack_eq]

/-! ## Sums and differences -/

theorem unpacked_neg_neg (u : UnpackedFloat) : u.neg.neg = u := by
  have hsign : ∀ s : Sign, -(-s) = s := by
    intro s
    cases s <;> rfl
  cases u with
  | notANumber => rfl
  | infinity s => exact congrArg UnpackedFloat.infinity (hsign s)
  | zero s => exact congrArg UnpackedFloat.zero (hsign s)
  | finite s m e hm => exact finite_congr (hsign s) rfl rfl

theorem unpacked_sub (u v : UnpackedFloat) :
    UnpackedFloat.sub Format.binary64 u v = UnpackedFloat.add Format.binary64 u v.neg := by
  have hsign : ∀ (s : Sign) (n : ℤ), (-s).apply n = -s.apply n := by
    intro s n
    cases s with
    | negative => exact (Int.neg_neg n).symm
    | positive => rfl
  cases u with
  | finite s m e hm =>
    cases v with
    | finite t n d hn =>
      unfold UnpackedFloat.sub UnpackedFloat.add UnpackedFloat.neg
      dsimp only
      rw [hsign, Int.sub_eq_add_neg]
    | _ => rfl
  | _ => cases v <;> rfl

theorem neg_neg (x : Float) : -(-x) = x := by
  apply eq_of_wordOf
  show UnpackedFloat.pack Format.binary64 (-x).toModel.unpack.neg = _
  rw [unpack_neg, unpacked_neg_neg, (hasParts x).pack_eq]

theorem sub_eq_add_neg (x y : Float) : x - y = x + -y := by
  apply eq_of_wordOf
  show UnpackedFloat.pack Format.binary64
      (UnpackedFloat.sub Format.binary64 x.toModel.unpack y.toModel.unpack) =
    UnpackedFloat.pack Format.binary64
      (UnpackedFloat.add Format.binary64 x.toModel.unpack (-y).toModel.unpack)
  rw [unpack_neg, unpacked_sub]

/-! ## Products with minus one -/

theorem unpack_neg_one :
    (-1.0 : Float).toModel.unpack = .finite .negative (2 ^ 52) (-52) (by decide) := by
  have hone : wordOf 1.0 = word .positive 1023#11 0#52 := by decide +kernel
  show UnpackedFloat.unpack Format.binary64 (wordOf (-1.0)) = _
  rw [wordOf_neg hone (by decide), unpack_normal _ (by decide) (by decide)]
  exact finite_congr rfl rfl rfl

section InPlace

/- The mantissa stands at its place: it is full, unless the exponent is the finest. -/
variable {m : ℕ} {e : ℤ} (hm : 0 < m) (hlt : m < 2 ^ 53) (he : -1074 ≤ e)

include hm hlt he

theorem shiftAmount_self : Binary.shiftAmount m e = 0 := by
  have hupper : m.log2 < 53 := (Nat.log2_lt hm.ne').2 hlt
  rw [Binary.shiftAmount_eq]
  omega

/-- With 52 bits more, a mantissa is shifted back by these. -/
theorem shiftAmount_mul (hge : -1074 < e → 2 ^ 52 ≤ m) :
    Binary.shiftAmount (m * 2 ^ 52) (e + -52) = 52 := by
  have hne : m * 2 ^ 52 ≠ 0 := by omega
  have hupper : (m * 2 ^ 52).log2 < 105 := (Nat.log2_lt hne).2 (by omega)
  have hlower : -1074 < e → 104 ≤ (m * 2 ^ 52).log2 := by
    intro h
    have := hge h
    exact (Nat.le_log2 hne).2 (by omega)
  rw [Binary.shiftAmount_eq]
  omega

omit hm hlt he in
/-- Nothing is cut off when the bits that were added are shifted out again. -/
theorem roundedMantissa_mul (m : ℕ) :
    (ExtendedMantissa.ofMantissaAndAccuracy (m * 2 ^ 52) .exact >>> 52).roundedMantissa = m := by
  have hnear := ((Binary.holds_exact (m * 2 ^ 52)).shiftRight 52).isNearest
  have hvalue : ((m * 2 ^ 52 : ℕ) : ℚ) / 2 ^ 52 = m := by
    push_cast
    exact mul_div_cancel_right₀ _ (by norm_num)
  rw [hvalue] at hnear
  exact hnear.unique (Binary.isNearest_natCast m)

/-- The product of a mantissa in its place with one of minus one is rounded to that mantissa. -/
theorem mul_finite_neg_one (s : Sign) (hge : -1074 < e → 2 ^ 52 ≤ m) :
    UnpackedFloat.mul Format.binary64 (.finite s m e hm)
      (.finite .negative (2 ^ 52) (-52) (by decide)) = .finite (s * .negative) m e hm := by
  show roundWithAccuracy Format.binary64 (s * .negative) (m * 2 ^ 52) (e + -52) .exact = _
  have hsame : ((⟨m, false, false⟩ : ExtendedMantissa) >>> 0).mantissa = m := rfl
  rw [Binary.roundWithAccuracy_eq, shiftAmount_mul hm hlt he hge, roundedMantissa_mul,
    show e + -52 + (52 : ℕ) = e by omega, Binary.carry_eq _ (shiftAmount_self hm hlt he) hsame,
    dif_neg hm.ne']
  exact finite_congr rfl rfl (by omega)

end InPlace

theorem HasParts.mul_neg_one (h : HasParts b u) :
    UnpackedFloat.mul Format.binary64 u (.finite .negative (2 ^ 52) (-52) (by decide)) = u.neg := by
  have hsign : ∀ s : Sign, s * .negative = -s := by
    intro s
    cases s <;> rfl
  cases h with
  | notANumber => rfl
  | infinity s => exact congrArg UnpackedFloat.infinity (hsign s)
  | zero s => exact congrArg UnpackedFloat.zero (hsign s)
  | @subnormal s f hf =>
    have hlt : f.toNat < 2 ^ 52 := f.isLt
    rw [mul_finite_neg_one _ (by omega) (by omega) s (by omega), hsign]
    rfl
  | @normal s e f he h0 =>
    have hlt : f.toNat < 2 ^ 52 := f.isLt
    have hpos : e.toNat ≠ 0 := fun hc => h0 (BitVec.eq_of_toNat_eq hc)
    rw [mul_finite_neg_one _ (by omega) (by omega) s (by omega), hsign]
    rfl

theorem mul_neg_one (x : Float) : x * -1.0 = -x := by
  apply eq_of_wordOf
  show UnpackedFloat.pack Format.binary64
      (UnpackedFloat.mul Format.binary64 x.toModel.unpack (-1.0 : Float).toModel.unpack) =
    UnpackedFloat.pack Format.binary64 x.toModel.unpack.neg
  rw [unpack_neg_one, (hasParts x).mul_neg_one]

end Double

end MatrixCalc
