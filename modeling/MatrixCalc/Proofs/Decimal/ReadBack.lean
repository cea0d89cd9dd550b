import MatrixCalc.Proofs.Decimal.Negation
import MatrixCalc.Proofs.Decimal.NumeralGrammar

/-!
# Every number is read back from its text

The text of a finite number is a numeral behind a sign, and the other three texts are words of their
own: `nan`, `inf` and `-inf`. So every number is read back from its text (`readNumber?_numberText`),
and numbers with one text are one number (`numberText_injective`).

The texts are also made of few characters (`mem_numberChars`), none of which separates numbers.
-/

namespace MatrixCalc

open Text Float.Model Float.Model.UnpackedFloat

/-! ## The doubles that are not finite -/

namespace Double

theorem eq_of_unpack {x y : Float} (h : x.toModel.unpack = y.toModel.unpack) : x = y := by
  apply eq_of_wordOf
  rw [← (hasParts x).pack_eq, h, (hasParts y).pack_eq]

theorem unpack_of_isNaN {x : Float} (hx : x.isNaN = true) : x.toModel.unpack = .notANumber := by
  have hnan : x.toModel.unpack.isNaN = true := hx
  cases hu : x.toModel.unpack with
  | notANumber => rfl
  | _ =>
    rw [hu] at hnan
    cases hnan

/-- There is one NaN. -/
theorem eq_nan_of_isNaN {x : Float} (hx : x.isNaN = true) : x = 0.0 / 0.0 := by
  have hnan : (0.0 / 0.0 : Float).isNaN = true := by decide +kernel
  exact eq_of_unpack ((unpack_of_isNaN hx).trans (unpack_of_isNaN hnan).symm)

/-- Apart from NaN, only the two infinities have the largest exponent. -/
theorem eq_infinity_of_exponentField {x : Float} (hx : Binary.exponentField x = 2047)
    (hnan : x.isNaN = false) :
    x = if Binary.isNegative x then -(1.0 / 0.0) else 1.0 / 0.0 := by
  have hnumber : x.toModel.unpack.isNaN = false := hnan
  have hparts := hasParts x
  generalize hword : wordOf x = b at hparts
  generalize x.toModel.unpack = u at hparts hnumber
  cases hparts with
  | notANumber => cases hnumber
  | infinity s =>
    apply eq_of_wordOf
    rw [hword]
    cases s with
    | positive =>
      rw [if_neg fun hneg => Sign.noConfusion ((isNegative_iff hword).1 hneg)]
      decide +kernel
    | negative =>
      rw [if_pos ((isNegative_iff hword).2 rfl)]
      decide +kernel
  | zero s | subnormal s _ =>
    rw [exponentField_eq hword] at hx
    exact absurd hx (by decide)
  | normal s f he h0 =>
    rw [exponentField_eq hword] at hx
    exact absurd (BitVec.eq_of_toNat_eq hx) he

end Double

/-! ## Reading back -/

theorem readNumber?_minus (r : List Char) :
    readNumber? (String.ofList ('-' :: r)) = (readNumber?.magnitude? r).map fun x => -x := by
  unfold readNumber?
  rw [String.toList_ofList]
  rfl

/-- **Reading back.** Every number is read back from its text, NaN and the infinities too. -/
theorem readNumber?_numberText (x : Float) : readNumber? (numberText x) = some x := by
  unfold numberText numberChars
  split
  · rename_i hnan
    rw [Double.eq_nan_of_isNaN hnan]
    rfl
  · rename_i hnan
    by_cases hx : Binary.exponentField x = 2047
    · have hvalue := Double.eq_infinity_of_exponentField hx (Bool.eq_false_iff.2 hnan)
      have hchars : magnitudeChars x = "inf".toList := if_pos hx
      rw [hchars]
      split
      · rename_i hneg
        rw [if_pos hneg] at hvalue
        rw [readNumber?_minus, hvalue]
        rfl
      · rename_i hneg
        rw [if_neg hneg] at hvalue
        rw [hvalue]
        rfl
    · have hnumeral := magnitudeChars_mem_number hx
      split
      · rename_i hneg
        rw [readNumber?_minus, magnitude?_of_mem_number hnumeral, readNumeral?_magnitudeChars hx,
          Option.map_some, neg_abs_eq_self hx hneg]
      · rename_i hneg
        rw [readNumber?_of_mem_number (by simpa using hnumeral), readNumeral?_magnitudeChars hx,
          abs_eq_self hx (Bool.eq_false_iff.2 hneg)]

/-- Numbers with one text are one number. -/
theorem numberText_injective : Function.Injective numberText := by
  intro x y h
  have hx := readNumber?_numberText x
  rw [h, readNumber?_numberText, Option.some.injEq] at hx
  exact hx.symm

/-! ## The characters of texts -/

theorem mem_magnitudeChars {x : Float} {c : Char} (h : c ∈ magnitudeChars x) :
    isDigit c = true ∨ c ∈ ['.', 'e', 'E', '+', '-', 'i', 'n', 'f'] := by
  by_cases hx : Binary.exponentField x = 2047
  · unfold magnitudeChars at h
    rw [if_pos hx] at h
    exact .inr (List.mem_append_right ['.', 'e', 'E', '+', '-'] h)
  · exact (Terminal.mem_of_mem_number (magnitudeChars_mem_number hx) h).imp_right
      (List.mem_append_left ['i', 'n', 'f'])

/-- A number is written in digits, a point, the marks of an exponent, signs and a few letters. -/
theorem mem_numberChars {x : Float} {c : Char} (h : c ∈ numberChars x) :
    isDigit c = true ∨ c ∈ ['.', 'e', 'E', '+', '-', 'i', 'n', 'f', 'a'] := by
  have hmagnitude : ∀ {c}, c ∈ magnitudeChars x →
      isDigit c = true ∨ c ∈ ['.', 'e', 'E', '+', '-', 'i', 'n', 'f', 'a'] := fun hc =>
    (mem_magnitudeChars hc).imp_right (List.mem_append_left ['a'])
  unfold numberChars at h
  split at h
  · have hnan : c ∈ ['n', 'a', 'n'] := h
    simp only [List.mem_cons, List.not_mem_nil, or_false] at hnan
    rcases hnan with rfl | rfl | rfl <;> exact .inr (by decide)
  · split at h
    · rcases List.mem_cons.1 h with rfl | h
      · exact .inr (by decide)
      · exact hmagnitude h
    · exact hmagnitude h

end MatrixCalc
