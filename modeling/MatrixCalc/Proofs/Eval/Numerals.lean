import Mathlib.Data.List.Forall2
import MatrixCalc.Eval
import MatrixCalc.Proofs.Decimal.NumeralGrammar
import MatrixCalc.Proofs.Source.Exact

/-!
# Numerals in trees and in texts

A tree may hold any text as a numeral. It has a value exactly if that text, parsed by itself, is that
numeral and nothing else, and in whatever script its digits are written (`eval_number_iff_parse`).

1. Both sides are the terminal: evaluation because it checks for it and reads what passes
   (`Value.ofNumeral_of_mem_number`, `Value.ofNumeral_of_not_mem_number`), the parser because a numeral
   alone is its own longest match.
2. `SameDigits` changes digits into digits of the same value. The marks stay where they are, so the
   text is cut at the same places (`cut_congr`), and its parts have the same values
   (`mantissa?_congr`, `exponent?_congr`).
-/

namespace MatrixCalc

namespace Text

/-! ## Digits of other scripts -/

/-- The characters are one, or digits of one value. -/
def SameDigit (c d : Char) : Prop := c = d ∨ isDigit c = true ∧ digitValue? c = digitValue? d

instance : DecidableRel SameDigit := fun c d =>
  inferInstanceAs (Decidable (c = d ∨ isDigit c = true ∧ digitValue? c = digitValue? d))

/-- The texts differ at most in the scripts of their digits. -/
abbrev SameDigits : List Char → List Char → Prop := List.Forall₂ SameDigit

namespace SameDigit

variable {c d : Char}

theorem digitValue?_eq (h : SameDigit c d) : digitValue? c = digitValue? d := by
  rcases h with rfl | h
  · rfl
  · exact h.2

theorem isDigit_eq (h : SameDigit c d) : isDigit c = isDigit d :=
  congrArg Option.isSome h.digitValue?_eq

theorem eq_of_not_isDigit (h : SameDigit c d) (hc : isDigit c = false) : c = d := by
  rcases h with h | ⟨h, -⟩
  · exact h
  · rw [hc] at h
    cases h

/-- A class of characters without digits does not see the difference. -/
theorem mark_eq {mark : Char → Bool} (hmark : ∀ c, isDigit c = true → mark c = false)
    (h : SameDigit c d) : mark c = mark d := by
  cases hc : isDigit c with
  | false => rw [h.eq_of_not_isDigit hc]
  | true => rw [hmark c hc, hmark d (h.isDigit_eq ▸ hc)]

end SameDigit

namespace SameDigits

variable {s t : List Char}

theorem all_isDigit (h : SameDigits s t) : s.all isDigit = t.all isDigit := by
  induction h with
  | nil => rfl
  | cons hcd _ ih => rw [List.all_cons, List.all_cons, hcd.isDigit_eq, ih]

theorem eq_nil_iff (h : SameDigits s t) : s = [] ↔ t = [] := by
  rw [← List.length_eq_zero_iff, h.length_eq, List.length_eq_zero_iff]

theorem digitsValue_eq (h : SameDigits s t) : digitsValue s = digitsValue t := by
  have hfold : ∀ n, s.foldl (fun n c => 10 * n + (digitValue? c).getD 0) n =
      t.foldl (fun n c => 10 * n + (digitValue? c).getD 0) n := by
    induction h with
    | nil => exact fun _ => rfl
    | cons hcd _ ih =>
      intro n
      rw [List.foldl_cons, List.foldl_cons, hcd.digitValue?_eq, ih]
  exact hfold 0

end SameDigits

end Text

open Text

namespace Numeral

variable {s t : List Char}

/-- A text is cut at the same places in every script. -/
theorem cut_congr {mark : Char → Bool} (hmark : ∀ c, isDigit c = true → mark c = false)
    (h : SameDigits s t) :
    (∃ a b, cut mark s = (a, none) ∧ cut mark t = (b, none) ∧ SameDigits a b) ∨
      ∃ a b x y, cut mark s = (a, some x) ∧ cut mark t = (b, some y) ∧ SameDigits a b ∧
        SameDigits x y := by
  induction h with
  | nil => exact .inl ⟨[], [], rfl, rfl, .nil⟩
  | @cons c d s t hcd hst ih =>
    unfold cut
    rw [← hcd.mark_eq hmark]
    split
    · exact .inr ⟨[], [], s, t, rfl, rfl, .nil, hst⟩
    · rcases ih with ⟨a, b, ha, hb, hab⟩ | ⟨a, b, x, y, ha, hb, hab, hxy⟩
      · rw [ha, hb]
        exact .inl ⟨_, _, rfl, rfl, .cons hcd hab⟩
      · rw [ha, hb]
        exact .inr ⟨_, _, x, y, rfl, rfl, .cons hcd hab, hxy⟩

theorem digits?_congr (h : SameDigits s t) : digits? s = digits? t := by
  unfold digits?
  rw [h.all_isDigit, h.digitsValue_eq]
  simp only [ne_eq, h.eq_nil_iff]

theorem exponent?_of_ne {c : Char} (hplus : c ≠ '+') (hminus : c ≠ '-') (s : List Char) :
    exponent? (c :: s) = (digits? (c :: s)).map Int.ofNat := by
  unfold exponent?
  split
  · rename_i h
    exact absurd (List.cons.inj h).1 hplus
  · rename_i h
    exact absurd (List.cons.inj h).1 hminus
  · rfl

theorem exponent?_congr (h : SameDigits s t) : exponent? s = exponent? t := by
  cases h with
  | nil => rfl
  | @cons c d s t hcd hst =>
    cases hc : isDigit c with
    | true =>
      have hsigns : ∀ e, isDigit e = true → e ≠ '+' ∧ e ≠ '-' := by
        intro e he
        constructor <;> rintro rfl <;> revert he <;> decide
      obtain ⟨hplus, hminus⟩ := hsigns c hc
      obtain ⟨hplus', hminus'⟩ := hsigns d (hcd.isDigit_eq ▸ hc)
      rw [exponent?_of_ne hplus hminus, exponent?_of_ne hplus' hminus',
        digits?_congr (.cons hcd hst)]
    | false =>
      obtain rfl := hcd.eq_of_not_isDigit hc
      by_cases hplus : c = '+'
      · subst hplus
        show (digits? s).map Int.ofNat = (digits? t).map Int.ofNat
        rw [digits?_congr hst]
      · by_cases hminus : c = '-'
        · subst hminus
          show Option.map _ ((digits? s).bind _) = Option.map _ ((digits? t).bind _)
          rw [digits?_congr hst]
        · rw [exponent?_of_ne hplus hminus, exponent?_of_ne hplus hminus,
            digits?_congr (.cons hcd hst)]

/-- A mantissa in other digits has the same parts in these digits, or none as well. -/
theorem mantissa?_congr (h : SameDigits s t) :
    (mantissa? s = none ∧ mantissa? t = none) ∨
      ∃ a b x y, mantissa? s = some (a, x) ∧ mantissa? t = some (b, y) ∧ SameDigits a b ∧
        SameDigits x y := by
  have hpoint : ∀ c, isDigit c = true → (c == '.') = false :=
    fun c hc => beq_eq_false_iff_ne.2 (ne_mark_of_isDigit hc).1
  unfold mantissa?
  rcases cut_congr hpoint h with ⟨a, b, ha, hb, hab⟩ | ⟨a, b, x, y, ha, hb, hab, hxy⟩
  · rw [ha, hb]
    dsimp only
    rw [hab.all_isDigit]
    simp only [ne_eq, hab.eq_nil_iff]
    split
    · exact .inr ⟨a, b, [], [], rfl, rfl, hab, .nil⟩
    · exact .inl ⟨rfl, rfl⟩
  · rw [ha, hb]
    dsimp only
    rw [hab.all_isDigit, hxy.all_isDigit]
    simp only [ne_eq, hab.eq_nil_iff, hxy.eq_nil_iff]
    split
    · exact .inr ⟨a, b, x, y, rfl, rfl, hab, hxy⟩
    · exact .inl ⟨rfl, rfl⟩

theorem toDecimal_congr {a b x y : List Char} (hab : SameDigits a b) (hxy : SameDigits x y) (n : ℤ) :
    toDecimal ⟨a, x, n⟩ = toDecimal ⟨b, y, n⟩ := by
  unfold toDecimal
  dsimp only
  rw [SameDigits.digitsValue_eq (List.rel_append hab hxy), hxy.length_eq]

/-- A text in other digits writes the same decimal, or none as well. -/
theorem ofChars?_congr (h : SameDigits s t) :
    (ofChars? s).map toDecimal = (ofChars? t).map toDecimal := by
  unfold ofChars?
  rcases cut_congr (fun _ => not_exponentMark_of_isDigit) h with
    ⟨m, m', hs, ht, hm⟩ | ⟨m, m', e, e', hs, ht, hm, he⟩
  · rw [hs, ht]
    dsimp only
    rcases mantissa?_congr hm with ⟨hp, hq⟩ | ⟨a, b, x, y, hp, hq, hab, hxy⟩
    · rw [hp, hq]
    · rw [hp, hq]
      exact congrArg some (toDecimal_congr hab hxy 0)
  · rw [hs, ht]
    dsimp only
    rw [exponent?_congr he]
    rcases mantissa?_congr hm with ⟨hp, hq⟩ | ⟨a, b, x, y, hp, hq, hab, hxy⟩
    · rw [hp, hq]
    · rw [hp, hq]
      cases exponent? e' with
      | none => rfl
      | some n => exact congrArg some (toDecimal_congr hab hxy n)

end Numeral

/-- Texts that differ in the scripts of their digits are read alike. -/
theorem readNumeral?_congr {a b : String} (h : SameDigits a.toList b.toList) :
    readNumeral? a = readNumeral? b := by
  have hmap := congrArg (Option.map Decimal.toFloat) (Numeral.ofChars?_congr h)
  rwa [Option.map_map, Option.map_map] at hmap

/-! ## Numerals alone -/

theorem splits_number_alone {text : String} (h : text.toList ∈ Terminal.number) :
    Lexer.Splits text.toList [.number text] :=
  .token ⟨h, List.append_nil _, fun _ _ hprefix => hprefix.length_le⟩ .nil

/-- A text is parsed as a numeral exactly if it is one from its first to its last character. -/
theorem parseStatement_number_iff {text : String} :
    parseStatement text = .ok (.print (.number text)) ↔ text.toList ∈ Terminal.number := by
  constructor
  · exact isStatement_of_parseStatement
  · intro h
    exact parseStatement_eq_ok_iff.2 ⟨_, splits_number_alone h, .print (.signed (.atom (.number text)))⟩

theorem eval_number_of_read {text : String} {x : Float} (h : readNumeral? text = some x) (s : Store) :
    (Tree.number text).eval s = (.ok (.scalar x), s) := by
  unfold Tree.eval
  rw [Value.ofNumeral_of_mem_number (mem_number_of_readNumeral? h) h]

/-- **One grammar of numerals.** A numeral in a tree has a value if and only if its text is parsed as
that numeral and nothing else; if not, it is malformed. A numeral in other digits of the same values
is parsed and evaluated as well, to the same number. -/
theorem eval_number_iff_parse (text : String) (s : Store) :
    ((∃ v, ((Tree.number text).eval s).1 = .ok v) ↔
      parseStatement text = .ok (.print (.number text))) ∧
    (parseStatement text ≠ .ok (.print (.number text)) →
      (Tree.number text).eval s = (.error (.malformedNumber text), s)) ∧
    ∀ other : String, SameDigits text.toList other.toList →
      parseStatement text = .ok (.print (.number text)) →
      parseStatement other = .ok (.print (.number other)) ∧
        ∃ x, (Tree.number text).eval s = (.ok (.scalar x), s) ∧
          (Tree.number other).eval s = (.ok (.scalar x), s) := by
  simp only [ne_eq, parseStatement_number_iff]
  have hmalformed : text.toList ∉ Terminal.number →
      (Tree.number text).eval s = (.error (.malformedNumber text), s) := by
    intro hnot
    unfold Tree.eval
    rw [Value.ofNumeral_of_not_mem_number hnot]
  refine ⟨⟨?_, ?_⟩, hmalformed, ?_⟩
  · rintro ⟨v, hv⟩
    by_contra hnot
    rw [hmalformed hnot] at hv
    cases hv
  · intro h
    obtain ⟨x, hx⟩ := readNumeral?_of_mem_number h
    exact ⟨.scalar x, by rw [eval_number_of_read hx]⟩
  · intro other hdigits h
    obtain ⟨x, hx⟩ := readNumeral?_of_mem_number h
    have hother : readNumeral? other = some x := by rw [← readNumeral?_congr hdigits, hx]
    exact ⟨mem_number_of_readNumeral? hother, x, eval_number_of_read hx s,
      eval_number_of_read hother s⟩

/-- The digits may be of several scripts; a mark without digits behind it is no exponent. -/
theorem eval_number_iff_parse_scripts :
    (let text := "12.5e-3"
     let other := "\u0661\u0968.5e-\uff13"
     SameDigits text.toList other.toList ∧ parseStatement text = .ok (.print (.number text)) ∧
       parseStatement other = .ok (.print (.number other)) ∧
       ∃ x, (Tree.number text).eval .empty = (.ok (.scalar x), .empty) ∧
         (Tree.number other).eval .empty = (.ok (.scalar x), .empty)) ∧
    (let text := "12e+"
     parseStatement text ≠ .ok (.print (.number text)) ∧
       (Tree.number text).eval .empty = (.error (.malformedNumber text), .empty)) := by
  constructor
  · intro text other
    have hdigits : SameDigits text.toList other.toList := by decide +kernel
    have hcheck : Lexer.isNumeral text.toList = true := by decide +kernel
    have hparse := parseStatement_number_iff.2 (Lexer.isNumeral_iff.1 hcheck)
    exact ⟨hdigits, hparse, (eval_number_iff_parse text .empty).2.2 other hdigits hparse⟩
  · intro text
    have hcheck : Lexer.isNumeral text.toList = false := by decide +kernel
    have hparse : parseStatement text ≠ .ok (.print (.number text)) := by
      intro h
      have hnumeral := Lexer.isNumeral_iff.2 (parseStatement_number_iff.1 h)
      rw [hcheck] at hnumeral
      cases hnumeral
    exact ⟨hparse, (eval_number_iff_parse text .empty).2.1 hparse⟩

end MatrixCalc
