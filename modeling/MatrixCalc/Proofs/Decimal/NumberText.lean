import MatrixCalc.Decimal.Numeral
import MatrixCalc.Decimal.Text
import MatrixCalc.Proofs.Decimal.Reading
import MatrixCalc.Proofs.Source.Lexeme

/-!
# The texts of numbers are read back

1. `Numeral.Writes` says which texts write the parts of a numeral; such a text is a terminal
   (`Writes.mem_number`) and is read as those parts (`Writes.ofChars?_eq`).
2. A decimal that is laid out writes a numeral of its value (`exists_writes_layout`), so its text is
   read as the double that it is read as (`readNumeral?_layout`).
3. The shortest decimal of a positive double is read as that double (`toFloat_shortest`): either a
   length was found at which it is, or the exact value stands there.
4. So the text of the magnitude of a finite double is read as its absolute value
   (`readNumeral?_magnitudeChars`).
-/

namespace MatrixCalc

open Text

/-! ## Values of digits -/

theorem digitsValue_append (a b : List Char) :
    digitsValue (a ++ b) = digitsValue a * 10 ^ b.length + digitsValue b := by
  induction b using List.reverseRecOn with
  | nil => simp
  | append_singleton b c ih =>
    rw [← List.append_assoc, digitsValue_append_singleton, digitsValue_append_singleton, ih,
      List.length_append, List.length_singleton, pow_succ]
    ring

theorem digitsValue_replicate_zero (k : ℕ) : digitsValue (List.replicate k '0') = 0 := by
  induction k with
  | zero => rfl
  | succ k ih =>
    rw [List.replicate_succ', digitsValue_append_singleton, ih]
    rfl

theorem isDigit_of_mem_replicate_zero {k : ℕ} {c : Char} (h : c ∈ List.replicate k '0') :
    isDigit c = true := by
  rw [List.eq_of_mem_replicate h]
  decide

theorem ne_mark_of_isDigit {c : Char} (h : isDigit c = true) : c ≠ '.' ∧ c ≠ 'e' ∧ c ≠ 'E' := by
  refine ⟨?_, ?_, ?_⟩ <;> rintro rfl <;> revert h <;> decide

/-! ## Numerals -/

namespace Numeral

theorem cut_eq_none {mark : Char → Bool} {a : List Char} (h : ∀ c ∈ a, mark c = false) :
    cut mark a = (a, none) := by
  induction a with
  | nil => rfl
  | cons c a ih =>
    rw [List.forall_mem_cons] at h
    unfold cut
    rw [if_neg (by rw [h.1]; exact Bool.false_ne_true), ih h.2]

theorem cut_eq_some {mark : Char → Bool} {a : List Char} {m : Char} (h : ∀ c ∈ a, mark c = false)
    (hm : mark m = true) (b : List Char) : cut mark (a ++ m :: b) = (a, some b) := by
  induction a with
  | nil =>
    rw [List.nil_append]
    unfold cut
    rw [if_pos hm]
  | cons c a ih =>
    rw [List.forall_mem_cons] at h
    rw [List.cons_append]
    unfold cut
    rw [if_neg (by rw [h.1]; exact Bool.false_ne_true), ih h.2]

theorem digits?_eq {ds : List Char} (hne : ds ≠ []) (h : ∀ c ∈ ds, isDigit c = true) :
    digits? ds = some (digitsValue ds) := by
  unfold digits?
  rw [if_pos ⟨hne, List.all_eq_true.2 h⟩]

/-- The text writes the parts: digits, perhaps a point with digits behind it, and perhaps an
exponent. -/
def Writes (s : List Char) (n : Numeral) : Prop :=
  ∃ fraction ex, s = n.whole ++ (fraction ++ ex) ∧ n.whole ≠ [] ∧
    (∀ c ∈ n.whole, isDigit c = true) ∧ (∀ c ∈ n.fraction, isDigit c = true) ∧
    ((fraction = [] ∧ n.fraction = []) ∨ fraction = '.' :: n.fraction) ∧
    ((ex = [] ∧ n.exp = 0) ∨ ex = 'e' :: Decimal.expChars n.exp)

/-- The digits of a written exponent. -/
def expDigits (e : ℤ) : List Char :=
  List.replicate (2 - (natChars e.natAbs).length) '0' ++ natChars e.natAbs

theorem expChars_eq (e : ℤ) :
    Decimal.expChars e = (if e < 0 then '-' else '+') :: expDigits e := rfl

theorem expDigits_ne_nil (e : ℤ) : expDigits e ≠ [] :=
  fun h => natChars_ne_nil _ (List.append_eq_nil_iff.1 h).2

theorem isDigit_of_mem_expDigits {e : ℤ} {c : Char} (h : c ∈ expDigits e) : isDigit c = true := by
  rcases List.mem_append.1 h with h | h
  · exact isDigit_of_mem_replicate_zero h
  · exact isDigit_of_mem_natChars h

theorem exponent?_expChars (e : ℤ) : exponent? (Decimal.expChars e) = some e := by
  have hvalue : digits? (expDigits e) = some e.natAbs := by
    rw [digits?_eq (expDigits_ne_nil e) fun c => isDigit_of_mem_expDigits]
    unfold expDigits
    rw [digitsValue_append, digitsValue_replicate_zero, zero_mul, zero_add, digitsValue_natChars]
  rw [expChars_eq]
  split
  · show Option.map (fun n : ℤ => -n) ((digits? (expDigits e)).bind fun n => some (n : ℤ)) = some e
    rw [hvalue, Option.bind_some, Option.map_some]
    congr 1
    omega
  · show (digits? (expDigits e)).map Int.ofNat = some e
    rw [hvalue, Option.map_some, Int.ofNat_eq_natCast]
    congr 1
    omega

theorem Writes.mem_number {s : List Char} {n : Numeral} (h : Writes s n) : s ∈ Terminal.number := by
  obtain ⟨fraction, ex, rfl, hne, hw, hf, hfrac, hex⟩ := h
  refine Terminal.mem_number.2 ⟨n.whole, fraction, ex, rfl, hw, ?_, fun hc => hne hc.1, ?_⟩
  · rcases hfrac with ⟨h, -⟩ | h
    · exact .inl h
    · exact .inr ⟨n.fraction, h, hf⟩
  · rw [Terminal.mem_perhaps]
    rcases hex with ⟨h, -⟩ | h
    · exact .inl h
    · refine .inr (Terminal.mem_exponent.2 ⟨'e', [if n.exp < 0 then '-' else '+'], expDigits n.exp, h,
        .inl rfl, ?_, expDigits_ne_nil _, fun c => isDigit_of_mem_expDigits⟩)
      split
      · exact .inr (.inr rfl)
      · exact .inr (.inl rfl)

theorem mantissa?_eq {n : Numeral} {fraction : List Char} (hne : n.whole ≠ [])
    (hw : ∀ c ∈ n.whole, isDigit c = true) (hf : ∀ c ∈ n.fraction, isDigit c = true)
    (hfrac : (fraction = [] ∧ n.fraction = []) ∨ fraction = '.' :: n.fraction) :
    mantissa? (n.whole ++ fraction) = some (n.whole, n.fraction) := by
  have hpoint : ∀ c ∈ n.whole, (c == '.') = false :=
    fun c hc => beq_eq_false_iff_ne.2 (ne_mark_of_isDigit (hw c hc)).1
  unfold mantissa?
  rcases hfrac with ⟨rfl, h⟩ | rfl
  · rw [List.append_nil, cut_eq_none hpoint]
    dsimp only
    rw [if_pos ⟨hne, List.all_eq_true.2 hw⟩, h]
  · rw [cut_eq_some hpoint (by decide)]
    dsimp only
    rw [if_pos ⟨.inl hne, List.all_eq_true.2 hw, List.all_eq_true.2 hf⟩]

theorem Writes.ofChars?_eq {s : List Char} {n : Numeral} (h : Writes s n) : ofChars? s = some n := by
  obtain ⟨fraction, ex, rfl, hne, hw, hf, hfrac, hex⟩ := h
  have hdigit : ∀ c, isDigit c = true → (c == 'e' || c == 'E') = false := by
    intro c hc
    obtain ⟨-, h1, h2⟩ := ne_mark_of_isDigit hc
    rw [beq_eq_false_iff_ne.2 h1, beq_eq_false_iff_ne.2 h2]
    rfl
  have hmark : ∀ c ∈ n.whole ++ fraction, (c == 'e' || c == 'E') = false := by
    rw [List.forall_mem_append]
    refine ⟨fun c hc => hdigit c (hw c hc), ?_⟩
    rcases hfrac with ⟨rfl, -⟩ | rfl
    · exact fun c hc => absurd hc List.not_mem_nil
    · exact List.forall_mem_cons.2 ⟨rfl, fun c hc => hdigit c (hf c hc)⟩
  have hm := mantissa?_eq hne hw hf hfrac
  rw [← List.append_assoc]
  unfold ofChars?
  rcases hex with ⟨rfl, he⟩ | rfl
  · rw [List.append_nil, cut_eq_none hmark]
    dsimp only
    rw [hm, Option.map_some, ← he]
  · rw [cut_eq_some hmark (by decide)]
    dsimp only
    rw [hm, exponent?_expChars]

end Numeral

/-! ## Layout -/

namespace Decimal

theorem value_eq_of_mul_pow {c d : Decimal} (k : ℕ) (hd : c.digits = d.digits * 10 ^ k)
    (he : c.exp + k = d.exp) : c.value = d.value := by
  unfold value
  rw [hd, ← he, zpow_add₀ (by norm_num), zpow_natCast, Nat.cast_mul, Nat.cast_pow, Nat.cast_ofNat]
  ring

section Layout

variable {d : Decimal} {ds : List Char}

/-- All digits and the zeros behind them stand before the point. -/
theorem exists_writes_whole (hne : ds ≠ []) (hds : ∀ c ∈ ds, isDigit c = true)
    (hvalue : digitsValue ds = d.digits) (hexp : 0 ≤ d.exp) :
    ∃ n : Numeral, Numeral.Writes (ds ++ List.replicate d.exp.toNat '0' ++ ['.', '0']) n ∧
      n.toDecimal.value = d.value := by
  refine ⟨⟨ds ++ List.replicate d.exp.toNat '0', ['0'], 0⟩, ⟨['.', '0'], [], by rw [List.append_nil],
    fun h => hne (List.append_eq_nil_iff.1 h).1, ?_, ?_, .inr rfl, .inl ⟨rfl, rfl⟩⟩, ?_⟩
  · exact List.forall_mem_append.2 ⟨hds, fun c => isDigit_of_mem_replicate_zero⟩
  · exact List.forall_mem_singleton.2 (by decide)
  · refine value_eq_of_mul_pow (d.exp.toNat + 1) ?_ ?_
    · show digitsValue (ds ++ List.replicate d.exp.toNat '0' ++ ['0']) = _
      rw [digitsValue_append, digitsValue_append, digitsValue_replicate_zero, hvalue,
        List.length_replicate, List.length_singleton, pow_succ]
      show (d.digits * 10 ^ d.exp.toNat + 0) * 10 ^ 1 + 0 = _
      ring
    · show (0 : ℤ) - (1 : ℕ) + (d.exp.toNat + 1 : ℕ) = d.exp
      omega

/-- The point stands among the digits. -/
theorem exists_writes_point (hds : ∀ c ∈ ds, isDigit c = true)
    (hvalue : digitsValue ds = d.digits) {k : ℕ} (hk : 0 < k) (hexp : (k : ℤ) - ds.length = d.exp)
    (hneg : d.exp < 0) :
    ∃ n : Numeral, Numeral.Writes (ds.take k ++ '.' :: ds.drop k) n ∧
      n.toDecimal.value = d.value := by
  refine ⟨⟨ds.take k, ds.drop k, 0⟩, ⟨'.' :: ds.drop k, [], by rw [List.append_nil], ?_,
    fun c hc => hds c (List.mem_of_mem_take hc), fun c hc => hds c (List.mem_of_mem_drop hc),
    .inr rfl, .inl ⟨rfl, rfl⟩⟩, ?_⟩
  · intro h
    have := congrArg List.length h
    rw [List.length_take, List.length_nil] at this
    omega
  · refine value_eq_of_mul_pow 0 ?_ ?_
    · show digitsValue (ds.take k ++ ds.drop k) = _
      rw [List.take_append_drop, hvalue, pow_zero, mul_one]
    · show (0 : ℤ) - (ds.drop k).length + (0 : ℕ) = d.exp
      rw [List.length_drop]
      omega

/-- Zeros stand between the point and the digits. -/
theorem exists_writes_small (hds : ∀ c ∈ ds, isDigit c = true)
    (hvalue : digitsValue ds = d.digits) {k : ℕ} (hexp : -((k : ℤ) + ds.length) = d.exp) :
    ∃ n : Numeral, Numeral.Writes ('0' :: '.' :: List.replicate k '0' ++ ds) n ∧
      n.toDecimal.value = d.value := by
  refine ⟨⟨['0'], List.replicate k '0' ++ ds, 0⟩, ⟨'.' :: (List.replicate k '0' ++ ds), [],
    by rw [List.append_nil]; rfl, List.cons_ne_nil _ _, List.forall_mem_singleton.2 (by decide),
    List.forall_mem_append.2 ⟨fun c => isDigit_of_mem_replicate_zero, hds⟩, .inr rfl,
    .inl ⟨rfl, rfl⟩⟩, ?_⟩
  refine value_eq_of_mul_pow 0 ?_ ?_
  · show digitsValue (['0'] ++ (List.replicate k '0' ++ ds)) = _
    rw [digitsValue_append, digitsValue_append, digitsValue_replicate_zero, hvalue]
    show 0 * _ + (0 * _ + d.digits) = _
    ring
  · show (0 : ℤ) - (List.replicate k '0' ++ ds).length + (0 : ℕ) = d.exp
    rw [List.length_append, List.length_replicate]
    omega

/-- One digit, perhaps a point and the other digits, and an exponent. -/
theorem exists_writes_exponent {c : Char} {rest point : List Char} {e : ℤ}
    (hds : ∀ x ∈ c :: rest, isDigit x = true) (hvalue : digitsValue (c :: rest) = d.digits)
    (hexp : e - rest.length = d.exp) (hpoint : (point = [] ∧ rest = []) ∨ point = '.' :: rest) :
    ∃ n : Numeral, Numeral.Writes (c :: point ++ 'e' :: expChars e) n ∧
      n.toDecimal.value = d.value := by
  rw [List.forall_mem_cons] at hds
  refine ⟨⟨[c], rest, e⟩, ⟨point, 'e' :: expChars e, rfl, List.cons_ne_nil _ _,
    List.forall_mem_singleton.2 hds.1, hds.2, hpoint, .inr rfl⟩, ?_⟩
  refine value_eq_of_mul_pow 0 ?_ ?_
  · show digitsValue (c :: rest) = _
    rw [hvalue, pow_zero, mul_one]
  · show e - rest.length + (0 : ℕ) = d.exp
    omega

end Layout

/-- A decimal that is laid out writes a numeral of its value. -/
theorem exists_writes_layout (d : Decimal) :
    ∃ n : Numeral, Numeral.Writes d.layout n ∧ n.toDecimal.value = d.value := by
  have hds : ∀ c ∈ natChars d.digits, isDigit c = true := fun c => isDigit_of_mem_natChars
  have hne := natChars_ne_nil d.digits
  have hvalue := digitsValue_natChars d.digits
  have hlen : 0 < (natChars d.digits).length := List.length_pos_iff.2 hne
  unfold layout leadingExp
  dsimp only
  generalize natChars d.digits = ds at hds hne hvalue hlen
  split
  · split
    · rename_i hexp
      exact exists_writes_whole hne hds hvalue hexp
    · split
      · exact exists_writes_point hds hvalue (by omega) (by omega) (by omega)
      · exact exists_writes_small hds hvalue (by omega)
  · split
    · exact absurd rfl hne
    · exact exists_writes_exponent hds hvalue (by simp) (.inl ⟨rfl, rfl⟩)
    · exact exists_writes_exponent hds hvalue (by rw [List.length_cons]; omega) (.inr rfl)

/-- The text of a decimal is read as the decimal is. -/
theorem readNumeral?_layout (d : Decimal) :
    readNumeral? (String.ofList d.layout) = some d.toFloat := by
  obtain ⟨n, hn, hvalue⟩ := exists_writes_layout d
  unfold readNumeral?
  rw [String.toList_ofList, hn.ofChars?_eq, Option.map_some, toFloat_congr hvalue]

theorem layout_mem_number (d : Decimal) : d.layout ∈ Terminal.number := by
  obtain ⟨n, hn, -⟩ := exists_writes_layout d
  exact hn.mem_number

theorem layout_zero : (Decimal.mk 0 0).layout = "0.0".toList := by
  have h : natChars 0 = ['0'] := by
    rw [natChars]
    rfl
  unfold layout leadingExp
  rw [h]
  rfl

/-! ## The shortest decimal -/

theorem value_trim (d : Decimal) : d.trim.value = d.value := by
  fun_induction trim d with
  | case1 d hd ih =>
    rw [ih]
    refine (value_eq_of_mul_pow 1 ?_ rfl).symm
    show d.digits = d.digits / 10 * 10 ^ 1
    omega
  | case2 d hd => rfl

/-- **Shortest decimals.** The shortest decimal of a positive double is read as that double. -/
theorem toFloat_shortest {x : Float} (hx : Binary.IsPositive x) : (shortest x).toFloat = x := by
  unfold shortest
  dsimp only
  rw [toFloat_congr (value_trim _)]
  generalize hfound : ((List.range maxDigits).findSome? fun (n : ℕ) =>
    neighbour? x (Binary.ofFloat x) ((Binary.ofFloat x).scale - (n + 1))) = found
  cases found with
  | none => exact hx.toFloat_exact
  | some d =>
    obtain ⟨n, -, hn⟩ := List.exists_of_findSome?_eq_some hfound
    exact eq_of_toBits (beq_iff_eq.1 (neighbour?_readsBack hn))

end Decimal

/-! ## The text of a number -/

section Magnitude

variable {x : Float}

theorem isPositive_abs (hx : Binary.exponentField x ≠ 2047) (hm : (Binary.ofFloat x).mantissa ≠ 0) :
    Binary.IsPositive x.abs := by
  refine ⟨?_, isNegative_abs hx, ?_⟩
  · rw [exponentField_abs hx]
    exact hx
  · rw [ofFloat_abs hx]
    exact Nat.pos_of_ne_zero hm

/-- A finite double without a mantissa has the absolute value zero. -/
theorem toBits_abs_of_mantissa (hx : Binary.exponentField x ≠ 2047)
    (hm : (Binary.ofFloat x).mantissa = 0) : x.abs.toBits.toNat = 0 := by
  rw [← ofFloat_abs hx] at hm
  rw [toNat_toBits (isNegative_abs hx)]
  unfold Binary.ofFloat at hm
  split at hm
  · rename_i h0
    rw [h0, show Binary.fractionField x.abs = 0 from hm, zero_mul]
  · unfold Binary.hiddenBit at hm
    dsimp only at hm
    omega

/-- **Magnitudes.** The text of the magnitude of a finite double is read as its absolute value. -/
theorem readNumeral?_magnitudeChars (hx : Binary.exponentField x ≠ 2047) :
    readNumeral? (String.ofList (magnitudeChars x)) = some x.abs := by
  unfold magnitudeChars
  rw [if_neg hx]
  split
  · rename_i hm
    rw [← Decimal.layout_zero, Decimal.readNumeral?_layout, Option.some.injEq]
    apply eq_of_toBits
    apply UInt64.toNat_inj.1
    rw [Decimal.toBits_toFloat_zero, toBits_abs_of_mantissa hx hm]
  · rename_i hm
    rw [Decimal.readNumeral?_layout, Decimal.toFloat_shortest (isPositive_abs hx hm)]

theorem magnitudeChars_mem_number (hx : Binary.exponentField x ≠ 2047) :
    magnitudeChars x ∈ Terminal.number := by
  unfold magnitudeChars
  rw [if_neg hx]
  split
  · rw [← Decimal.layout_zero]
    exact Decimal.layout_mem_number _
  · exact Decimal.layout_mem_number _

end Magnitude

end MatrixCalc
