import Mathlib.Tactic.NormNum
import MatrixCalc.Decimal.Quotient

/-!
# The words of doubles

A double is its word: a sign bit, an exponent field of eleven bits and a fraction field of 52 bits.
The operations on doubles take words apart and put them together again.

1. Every word is made of its fields (`exists_eq_word`), and a double has no other content than its
   word (`eq_of_toBits`).
2. What is taken apart from finite fields is put together to the same word (`pack_unpack_word`).
3. So the absolute value clears the sign of a finite double and negation flips it, and a finite
   double is its absolute value, negated if its sign is set (`eq_abs`, `eq_neg_abs`).
4. The magnitude of the parts is that of `Binary.ofFloat` (`unpack_of_finite`).
-/

namespace MatrixCalc

open Float.Model Float.Model.UnpackedFloat

/-! ## Fields -/

/-- The word with the given fields. -/
def word (s : Sign) (e : BitVec 11) (f : BitVec 52) : BitVec 64 :=
  packComponents Format.binary64 s e f

theorem toNat_word (s : Sign) (e : BitVec 11) (f : BitVec 52) :
    (word s e f).toNat = s.toBitVec.toNat * 2 ^ 63 + e.toNat * 2 ^ 52 + f.toNat := by
  have he : e.toNat < 2 ^ 11 := e.isLt
  have hf : f.toNat < 2 ^ 52 := f.isLt
  unfold word packComponents
  rw [BitVec.toNat_append, BitVec.toNat_append, ← Nat.shiftLeft_add_eq_or_of_lt hf,
    ← Nat.shiftLeft_add_eq_or_of_lt he, Nat.shiftLeft_eq, Nat.shiftLeft_eq]
  omega

theorem toNat_negative : Sign.negative.toBitVec.toNat = 1 := rfl

theorem toNat_positive : Sign.positive.toBitVec.toNat = 0 := rfl

theorem exists_eq_word (b : BitVec 64) : ∃ s e f, b = word s e f := by
  have hb : b.toNat < 2 ^ 64 := b.isLt
  refine ⟨if 2 ^ 63 ≤ b.toNat then .negative else .positive,
    BitVec.ofNat 11 (b.toNat / 2 ^ 52), BitVec.ofNat 52 b.toNat, BitVec.eq_of_toNat_eq ?_⟩
  rw [toNat_word, BitVec.toNat_ofNat, BitVec.toNat_ofNat]
  split
  · rw [toNat_negative]
    omega
  · rw [toNat_positive]
    omega

/-- The word of a double. -/
def wordOf (x : Float) : BitVec 64 := x.toModel.toBits.toBitVec

theorem toNat_wordOf (x : Float) : (wordOf x).toNat = x.toBits.toNat := rfl

theorem eq_of_toBits {x y : Float} (h : x.toBits = y.toBits) : x = y := by
  obtain ⟨⟨b, hb⟩⟩ := x
  obtain ⟨⟨c, hc⟩⟩ := y
  cases (h : b = c)
  rfl

theorem eq_of_wordOf {x y : Float} (h : wordOf x = wordOf y) : x = y :=
  eq_of_toBits (UInt64.toBitVec_inj.1 h)

section Fields

variable {x : Float} {s : Sign} {e : BitVec 11} {f : BitVec 52}

theorem exponentField_eq (h : wordOf x = word s e f) : Binary.exponentField x = e.toNat := by
  have he : e.toNat < 2 ^ 11 := e.isLt
  have hf : f.toNat < 2 ^ 52 := f.isLt
  unfold Binary.exponentField Binary.hiddenBit
  rw [← toNat_wordOf, h, toNat_word]
  omega

theorem fractionField_eq (h : wordOf x = word s e f) : Binary.fractionField x = f.toNat := by
  have hf : f.toNat < 2 ^ 52 := f.isLt
  unfold Binary.fractionField Binary.hiddenBit
  rw [← toNat_wordOf, h, toNat_word]
  omega

theorem isNegative_iff (h : wordOf x = word s e f) :
    Binary.isNegative x = true ↔ s = .negative := by
  have he : e.toNat < 2 ^ 11 := e.isLt
  have hf : f.toNat < 2 ^ 52 := f.isLt
  unfold Binary.isNegative
  rw [← toNat_wordOf, h, toNat_word, decide_eq_true_eq]
  cases s with
  | negative =>
    rw [toNat_negative]
    exact iff_of_true (by omega) rfl
  | positive =>
    rw [toNat_positive]
    exact iff_of_false (by omega) Sign.noConfusion

end Fields

/-! ## Taking words apart -/

theorem unpackSign_word (s : Sign) (e : BitVec 11) (f : BitVec 52) :
    @unpackSign Format.binary64 (word s e f) = s.toBitVec := by
  have hw := toNat_word s e f
  have he : e.toNat < 2 ^ 11 := e.isLt
  have hf : f.toNat < 2 ^ 52 := f.isLt
  have hs : s.toBitVec.toNat < 2 := s.toBitVec.isLt
  apply BitVec.eq_of_toNat_eq
  unfold unpackSign
  rw [BitVec.toNat_cast, BitVec.extractLsb_toNat, hw, Nat.shiftRight_eq_div_pow]
  show _ / 2 ^ 63 % 2 ^ 1 = _
  omega

theorem ofBitVec_toBitVec (s : Sign) : Sign.ofBitVec s.toBitVec = s := by
  cases s with
  | negative => rfl
  | positive => rfl

theorem toNat_one_append (f : BitVec 52) : (1#1 ++ f).toNat = 2 ^ 52 + f.toNat := by
  rw [BitVec.toNat_append, ← Nat.shiftLeft_add_eq_or_of_lt f.isLt]
  rfl

theorem finite_congr {s t : Sign} {m n : Nat} {d e : Int} {hm : 0 < m} {hn : 0 < n} (hs : s = t)
    (h : m = n) (h' : d = e) : UnpackedFloat.finite s m d hm = .finite t n e hn := by
  subst hs h h'
  rfl

section Unpack

variable (s : Sign) {e : BitVec 11} {f : BitVec 52}

theorem unpackExponent_word : @unpackExponent Format.binary64 (word s e f) = e :=
  unpackExponent_packComponents

theorem unpackMantissa_word : @unpackMantissa Format.binary64 (word s e f) = f :=
  unpackMantissa_packComponents

theorem ofBitVec_unpackSign : Sign.ofBitVec (@unpackSign Format.binary64 (word s e f)) = s := by
  rw [unpackSign_word, ofBitVec_toBitVec]

theorem toNat_pos_of_ne (hf : f ≠ 0#52) : 0 < f.toNat :=
  Nat.pos_of_ne_zero fun hc => hf (BitVec.eq_of_toNat_eq hc)

theorem unpack_zero_word : UnpackedFloat.unpack Format.binary64 (word s 0#11 0#52) = .zero s := by
  cases s with
  | negative => rfl
  | positive => rfl

theorem unpack_subnormal (hf : f ≠ 0#52) :
    UnpackedFloat.unpack Format.binary64 (word s 0#11 f) =
      .finite s f.toNat (-1074) (toNat_pos_of_ne hf) := by
  have he : @unpackExponent Format.binary64 (word s 0#11 f) = 0#11 := unpackExponent_word s
  have hm : @unpackMantissa Format.binary64 (word s 0#11 f) = f := unpackMantissa_word s
  unfold UnpackedFloat.unpack
  dsimp only
  rw [if_neg (by rw [he]; decide), if_pos he, dif_neg (by rw [hm]; exact hf)]
  exact finite_congr (ofBitVec_unpackSign s) (by rw [hm]) (by rw [he]; rfl)

theorem unpack_normal (he : e ≠ -1#11) (h0 : e ≠ 0#11) :
    UnpackedFloat.unpack Format.binary64 (word s e f) =
      .finite s (2 ^ 52 + f.toNat) ((e.toNat : Int) - 1075) (Nat.add_pos_left (by decide) _) := by
  have hx : @unpackExponent Format.binary64 (word s e f) = e := unpackExponent_word s
  have hm : @unpackMantissa Format.binary64 (word s e f) = f := unpackMantissa_word s
  unfold UnpackedFloat.unpack
  dsimp only
  rw [if_neg (by rw [hx]; exact he), if_neg (by rw [hx]; exact h0)]
  exact finite_congr (ofBitVec_unpackSign s) (by rw [hm]; exact toNat_one_append f) (by rw [hx]; rfl)

end Unpack

/-! ## Putting words together -/

theorem exponentBias_binary64 : Format.binary64.exponentBias = 1023 := rfl

theorem mantissaBits_binary64 : Format.binary64.mantissaBits = 53 := rfl

/-- The word of a number with its mantissa at its place: fields and mantissa are added, so that the
leading bit of a normal number counts as one in the exponent field, and what is too large is
infinite. -/
theorem toNat_pack_finite (s : Sign) {n : Nat} {e : Int} (hn : 0 < n) (hlt : n < 2 ^ 53)
    (he : -1074 ≤ e) (hge : -1074 < e → 2 ^ 52 ≤ n) :
    (UnpackedFloat.pack Format.binary64 (.finite s n e hn)).toNat =
      s.toBitVec.toNat * 2 ^ 63 +
        min Binary.infinityBits ((e + 1074).toNat * Binary.hiddenBit + n) := by
  have hlog : n.log2 + 1 = 53 ↔ 2 ^ 52 ≤ n := by
    have hle := (Nat.log2_lt (n := n) (k := 53) (by omega)).2 hlt
    have hiff := Nat.le_log2 (n := n) (k := 52) (by omega)
    omega
  unfold UnpackedFloat.pack Binary.infinityBits Binary.hiddenBit
  dsimp only
  rw [exponentBias_binary64, mantissaBits_binary64]
  split
  · show (word s (-1#11) 0#52).toNat = _
    rw [toNat_word]
    show _ + 2047 * 2 ^ 52 + 0 = _
    omega
  · split
    · rename_i hfits hnormal
      show (word s (BitVec.ofNat 11 _) (BitVec.ofNat 52 n)).toNat = _
      rw [toNat_word, BitVec.toNat_ofNat, BitVec.toNat_ofNat]
      have := hlog.1 hnormal
      omega
    · rename_i hfits hnormal
      show (word s 0#11 (BitVec.ofNat 52 n)).toNat = _
      rw [toNat_word, BitVec.toNat_ofNat, BitVec.toNat_ofNat]
      have hsmall := mt hlog.2 hnormal
      omega

theorem pack_unpack_word (s : Sign) {e : BitVec 11} (f : BitVec 52) (he : e ≠ -1#11) :
    UnpackedFloat.pack Format.binary64 (UnpackedFloat.unpack Format.binary64 (word s e f)) =
      word s e f := by
  have hf : f.toNat < 2 ^ 52 := f.isLt
  by_cases h0 : e = 0#11
  · subst h0
    by_cases hf0 : f = 0#52
    · rw [hf0, unpack_zero_word]
      rfl
    · apply BitVec.eq_of_toNat_eq
      rw [unpack_subnormal s hf0, toNat_pack_finite _ _ (by omega) (by omega) (by omega), toNat_word]
      show _ = _ + 0 * 2 ^ 52 + _
      unfold Binary.infinityBits Binary.hiddenBit
      omega
  · have hlt : e.toNat < 2 ^ 11 := e.isLt
    have hne : e.toNat ≠ 2047 := fun h => he (BitVec.eq_of_toNat_eq h)
    have hpos : e.toNat ≠ 0 := fun h => h0 (BitVec.eq_of_toNat_eq h)
    apply BitVec.eq_of_toNat_eq
    rw [unpack_normal s he h0, toNat_pack_finite _ _ (by omega) (by omega) (by omega), toNat_word]
    unfold Binary.infinityBits Binary.hiddenBit
    omega

/-! ## Signs -/

/-- What changes only the sign of the parts changes only the sign of the word. -/
theorem map_unpack_word (g : UnpackedFloat → UnpackedFloat) {s t : Sign} {e : BitVec 11}
    (f : BitVec 52) (he : e ≠ -1#11) (hzero : g (.zero s) = .zero t)
    (hfinite : ∀ m k hm, g (.finite s m k hm) = .finite t m k hm) :
    UnpackedFloat.pack Format.binary64 (g (UnpackedFloat.unpack Format.binary64 (word s e f))) =
      word t e f := by
  rw [← pack_unpack_word t f he]
  congr 1
  by_cases h0 : e = 0#11
  · subst h0
    by_cases hf0 : f = 0#52
    · rw [hf0, unpack_zero_word, unpack_zero_word, hzero]
    · rw [unpack_subnormal s hf0, unpack_subnormal t hf0, hfinite]
  · rw [unpack_normal s he h0, unpack_normal t he h0, hfinite]

section Finite

variable {x : Float} {s : Sign} {e : BitVec 11} {f : BitVec 52}

theorem wordOf_abs (h : wordOf x = word s e f) (he : e ≠ -1#11) :
    wordOf x.abs = word .positive e f := by
  show UnpackedFloat.pack Format.binary64 (UnpackedFloat.unpack Format.binary64 (wordOf x)).abs = _
  rw [h]
  exact map_unpack_word UnpackedFloat.abs f he rfl fun _ _ _ => rfl

theorem wordOf_neg (h : wordOf x = word s e f) (he : e ≠ -1#11) :
    wordOf (-x) = word (-s) e f := by
  show UnpackedFloat.pack Format.binary64 (UnpackedFloat.unpack Format.binary64 (wordOf x)).neg = _
  rw [h]
  exact map_unpack_word UnpackedFloat.neg f he rfl fun _ _ _ => rfl

theorem ne_of_exponentField (h : wordOf x = word s e f) (hx : Binary.exponentField x ≠ 2047) :
    e ≠ -1#11 := by
  rintro rfl
  exact hx (exponentField_eq h)

/-- A finite double with a clear sign is its absolute value. -/
theorem abs_eq_self (hx : Binary.exponentField x ≠ 2047) (hs : Binary.isNegative x = false) :
    x.abs = x := by
  obtain ⟨s, e, f, h⟩ := exists_eq_word (wordOf x)
  apply eq_of_wordOf
  rw [wordOf_abs h (ne_of_exponentField h hx), h]
  cases s with
  | positive => rfl
  | negative =>
    rw [(isNegative_iff h).2 rfl] at hs
    cases hs

/-- A finite double with its sign set is its absolute value, negated. -/
theorem neg_abs_eq_self (hx : Binary.exponentField x ≠ 2047) (hs : Binary.isNegative x = true) :
    -x.abs = x := by
  obtain ⟨s, e, f, h⟩ := exists_eq_word (wordOf x)
  have he := ne_of_exponentField h hx
  apply eq_of_wordOf
  rw [wordOf_neg (wordOf_abs h he) he, h, (isNegative_iff h).1 hs]
  rfl

theorem isNegative_abs (hx : Binary.exponentField x ≠ 2047) : Binary.isNegative x.abs = false := by
  obtain ⟨s, e, f, h⟩ := exists_eq_word (wordOf x)
  have habs := wordOf_abs h (ne_of_exponentField h hx)
  rw [← Bool.not_eq_true, isNegative_iff habs]
  exact Sign.noConfusion

theorem exponentField_abs (hx : Binary.exponentField x ≠ 2047) :
    Binary.exponentField x.abs = Binary.exponentField x := by
  obtain ⟨s, e, f, h⟩ := exists_eq_word (wordOf x)
  rw [exponentField_eq (wordOf_abs h (ne_of_exponentField h hx)), exponentField_eq h]

theorem ofFloat_abs (hx : Binary.exponentField x ≠ 2047) :
    Binary.ofFloat x.abs = Binary.ofFloat x := by
  obtain ⟨s, e, f, h⟩ := exists_eq_word (wordOf x)
  have habs := wordOf_abs h (ne_of_exponentField h hx)
  unfold Binary.ofFloat
  rw [exponentField_abs hx, fractionField_eq habs, fractionField_eq h]

/-! ## Finite doubles -/

theorem exponentField_of_isFinite (hx : x.isFinite = true) : Binary.exponentField x ≠ 2047 := by
  obtain ⟨s, e, f, h⟩ := exists_eq_word (wordOf x)
  intro hc
  rw [exponentField_eq h] at hc
  have he : e = -1#11 := BitVec.eq_of_toNat_eq hc
  have hexp : @unpackExponent Format.binary64 (wordOf x) = -1#11 := by
    rw [h, ← he]
    exact unpackExponent_packComponents
  have hfin : (UnpackedFloat.unpack Format.binary64 (wordOf x)).isFinite = true := hx
  unfold UnpackedFloat.unpack at hfin
  dsimp only at hfin
  rw [if_pos hexp] at hfin
  split at hfin
  · cases hfin
  · cases hfin

theorem isNaN_of_isFinite (hx : x.isFinite = true) : x.isNaN = false := by
  have hfin : x.toModel.unpack.isFinite = true := hx
  show x.toModel.unpack.isNaN = false
  cases hu : x.toModel.unpack with
  | notANumber =>
    rw [hu] at hfin
    cases hfin
  | infinity s => rfl
  | zero s => rfl
  | finite s m e hm => rfl

/-- A positive finite double taken apart has the magnitude of its fields. -/
theorem unpack_of_finite (hx : Binary.exponentField x ≠ 2047) (hs : Binary.isNegative x = false)
    (hm : 0 < (Binary.ofFloat x).mantissa) :
    x.toModel.unpack =
      .finite .positive (Binary.ofFloat x).mantissa (Binary.ofFloat x).exponent hm := by
  obtain ⟨s, e, f, h⟩ := exists_eq_word (wordOf x)
  have he := exponentField_eq h
  have hf := fractionField_eq h
  have hs' : s = .positive := by
    cases s with
    | positive => rfl
    | negative =>
      rw [(isNegative_iff h).2 rfl] at hs
      cases hs
  show UnpackedFloat.unpack Format.binary64 (wordOf x) = _
  by_cases h0 : e = 0#11
  · subst h0
    have hof : Binary.ofFloat x = ⟨f.toNat, -1074⟩ := by
      unfold Binary.ofFloat
      rw [hf, if_pos (by rw [he]; rfl)]
    have hf0 : f ≠ 0#52 := by
      rintro rfl
      rw [hof] at hm
      exact absurd hm (Nat.lt_irrefl 0)
    rw [h, unpack_subnormal s hf0]
    exact finite_congr hs' (by rw [hof]) (by rw [hof])
  · have hof : Binary.ofFloat x = ⟨2 ^ 52 + f.toNat, (e.toNat : Int) - 1075⟩ := by
      unfold Binary.ofFloat
      rw [hf, he, if_neg fun hc : e.toNat = 0 => h0 (BitVec.eq_of_toNat_eq hc)]
      rfl
    rw [h, unpack_normal s (ne_of_exponentField h hx) h0]
    exact finite_congr hs' (by rw [hof]) (by rw [hof])

/-- The word of a double with a clear sign is its two fields. -/
theorem toNat_toBits (hs : Binary.isNegative x = false) :
    x.toBits.toNat = Binary.exponentField x * Binary.hiddenBit + Binary.fractionField x := by
  have hlt : x.toBits.toNat < 2 ^ 64 := x.toBits.toBitVec.isLt
  unfold Binary.isNegative at hs
  rw [decide_eq_false_iff_not] at hs
  unfold Binary.exponentField Binary.fractionField Binary.hiddenBit
  omega

end Finite

end MatrixCalc
