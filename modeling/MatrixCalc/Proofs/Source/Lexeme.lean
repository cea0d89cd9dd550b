import Mathlib.Computability.Language
import Mathlib.Data.List.TakeWhile
import MatrixCalc.Source.Lexer

/-!
# Lexemes

The terminals of the language are regular languages over characters, and a text is cut into pieces
by the longest match.

1. `Terminal` writes each terminal as a regular expression; `Piece.IsLexeme` says which pieces are
   texts of a terminal. A name is never the keyword.
2. `Longest s p rest` says that no lexeme at the head of `s` is longer than `p`.
3. `piece?_eq_some_iff`: one cut of the lexer is exactly the longest match. The greedy reader of
   numerals is the delicate part (`length_le_takeNumber?`).
4. `Splits s ts` cuts a whole text into tokens, and `splits_iff` says that `pieces` does the same.
-/

namespace MatrixCalc

open Text
open scoped Computability

/-! ## Terminals -/

namespace Terminal

/-- One character of a class. -/
def oneOf (p : Char → Bool) : Language Char := {s | ∃ c, p c = true ∧ s = [c]}

/-- A text of the language or none. -/
def perhaps (L : Language Char) : Language Char := 1 + L

/-- One or more texts of the language. -/
def many (L : Language Char) : Language Char := L * L∗

/-- A letter or an underscore, then letters, digits and underscores, all in ASCII. -/
def name : Language Char := oneOf Lexer.isNameStart * (oneOf Lexer.isNameRest)∗

/-- A decimal digit of any script. -/
def digit : Language Char := oneOf isDigit

/-- The point. -/
def point : Language Char := oneOf (· == '.')

/-- The mark of an exponent, perhaps a sign, and digits. -/
def exponent : Language Char :=
  oneOf (fun c => c == 'e' || c == 'E') * perhaps (oneOf fun c => c == '+' || c == '-') * many digit

/-- Digits with a point behind or between them or none, or digits behind a point; then perhaps an
exponent. -/
def number : Language Char :=
  (many digit * perhaps (point * digit∗) + point * many digit) * perhaps exponent

/-- A run of skipped characters. -/
def blank : Language Char := many (oneOf Lexer.isSkipped)

/-- A hash and the rest of its line. -/
def comment : Language Char := oneOf (· == '#') * (oneOf (· != '\n'))∗

variable {p : Char → Bool} {s : List Char}

theorem mem_oneOf_kstar : s ∈ (oneOf p)∗ ↔ ∀ c ∈ s, p c = true := by
  rw [Language.mem_kstar]
  constructor
  · rintro ⟨L, rfl, h⟩ c hc
    obtain ⟨l, hl, hcl⟩ := List.mem_flatten.1 hc
    obtain ⟨d, hd, rfl⟩ := h l hl
    rw [List.mem_singleton.1 hcl]
    exact hd
  · intro h
    refine ⟨s.map fun c => [c], by rw [← List.flatMap_def]; simp, ?_⟩
    intro l hl
    obtain ⟨c, hc, rfl⟩ := List.mem_map.1 hl
    exact ⟨c, h c hc, rfl⟩

theorem mem_oneOf_mul {L : Language Char} :
    s ∈ oneOf p * L ↔ ∃ c r, s = c :: r ∧ p c = true ∧ r ∈ L := by
  rw [Language.mem_mul]
  constructor
  · rintro ⟨_, ⟨c, hc, rfl⟩, r, hr, rfl⟩
    exact ⟨c, r, rfl, hc, hr⟩
  · rintro ⟨c, r, rfl, hc, hr⟩
    exact ⟨[c], ⟨c, hc, rfl⟩, r, hr, rfl⟩

theorem mem_many_oneOf : s ∈ many (oneOf p) ↔ s ≠ [] ∧ ∀ c ∈ s, p c = true := by
  unfold many
  rw [mem_oneOf_mul]
  constructor
  · rintro ⟨c, r, rfl, hc, hr⟩
    refine ⟨List.cons_ne_nil c r, ?_⟩
    rw [List.forall_mem_cons]
    exact ⟨hc, mem_oneOf_kstar.1 hr⟩
  · rintro ⟨hne, h⟩
    obtain ⟨c, r, rfl⟩ := List.exists_cons_of_ne_nil hne
    rw [List.forall_mem_cons] at h
    exact ⟨c, r, rfl, h.1, mem_oneOf_kstar.2 h.2⟩

theorem mem_perhaps {L : Language Char} : s ∈ perhaps L ↔ s = [] ∨ s ∈ L := by
  unfold perhaps
  rw [Language.mem_add, Language.mem_one]

theorem mem_name : s ∈ name ↔ ∃ c r, s = c :: r ∧ Lexer.isNameStart c = true ∧
    ∀ d ∈ r, Lexer.isNameRest d = true := by
  unfold name
  simp only [mem_oneOf_mul, mem_oneOf_kstar]

theorem mem_blank : s ∈ blank ↔ s ≠ [] ∧ ∀ c ∈ s, Lexer.isSkipped c = true := mem_many_oneOf

theorem mem_comment : s ∈ comment ↔ ∃ r, s = '#' :: r ∧ ∀ c ∈ r, (c != '\n') = true := by
  unfold comment
  rw [mem_oneOf_mul]
  constructor
  · rintro ⟨c, r, rfl, hc, hr⟩
    rw [beq_iff_eq.1 hc]
    exact ⟨r, rfl, mem_oneOf_kstar.1 hr⟩
  · rintro ⟨r, rfl, hr⟩
    exact ⟨'#', r, rfl, by decide, mem_oneOf_kstar.2 hr⟩

theorem mem_exponent : s ∈ exponent ↔ ∃ c sign ds, s = c :: (sign ++ ds) ∧ (c = 'e' ∨ c = 'E') ∧
    (sign = [] ∨ sign = ['+'] ∨ sign = ['-']) ∧ ds ≠ [] ∧ ∀ d ∈ ds, isDigit d = true := by
  unfold exponent
  rw [mul_assoc, mem_oneOf_mul]
  simp only [Language.mem_mul, mem_perhaps, digit, mem_many_oneOf, Bool.or_eq_true, beq_iff_eq]
  constructor
  · rintro ⟨c, _, rfl, hc, sign, hs, ds, hds, rfl⟩
    refine ⟨c, sign, ds, rfl, hc, ?_, hds⟩
    rcases hs with hs | ⟨d, hd, rfl⟩
    · exact .inl hs
    · rcases by simpa using hd with rfl | rfl
      · exact .inr (.inl rfl)
      · exact .inr (.inr rfl)
  · rintro ⟨c, sign, ds, rfl, hc, hs, hds⟩
    refine ⟨c, sign ++ ds, rfl, hc, sign, ?_, ds, hds, rfl⟩
    rcases hs with hs | hs | hs
    · exact .inl hs
    · exact .inr ⟨'+', by decide, hs⟩
    · exact .inr ⟨'-', by decide, hs⟩

theorem mem_point_mul {L : Language Char} : s ∈ point * L ↔ ∃ ds, s = '.' :: ds ∧ ds ∈ L := by
  unfold point
  rw [mem_oneOf_mul]
  constructor
  · rintro ⟨c, ds, rfl, hc, hds⟩
    rw [beq_iff_eq.1 hc]
    exact ⟨ds, rfl, hds⟩
  · rintro ⟨ds, rfl, hds⟩
    exact ⟨'.', ds, rfl, by decide, hds⟩

/-- A numeral is digits, a fraction and an exponent, not all of the first two missing. -/
theorem mem_number : s ∈ number ↔ ∃ whole fraction ex, s = whole ++ (fraction ++ ex) ∧
    (∀ c ∈ whole, isDigit c = true) ∧
    (fraction = [] ∨ ∃ ds, fraction = '.' :: ds ∧ ∀ c ∈ ds, isDigit c = true) ∧
    ¬ (whole = [] ∧ fraction.length ≤ 1) ∧ ex ∈ perhaps exponent := by
  unfold number digit
  rw [Language.mem_mul]
  constructor
  · rintro ⟨m, hm, ex, he, rfl⟩
    rcases (Language.mem_add _ _ _).1 hm with hm | hm
    · obtain ⟨whole, hw, fraction, hf, rfl⟩ := Language.mem_mul.1 hm
      obtain ⟨hne, hw⟩ := mem_many_oneOf.1 hw
      refine ⟨whole, fraction, ex, List.append_assoc .., hw, ?_, fun h => hne h.1, he⟩
      rcases mem_perhaps.1 hf with hf | hf
      · exact .inl hf
      · obtain ⟨ds, rfl, hds⟩ := mem_point_mul.1 hf
        exact .inr ⟨ds, rfl, mem_oneOf_kstar.1 hds⟩
    · obtain ⟨ds, rfl, hds⟩ := mem_point_mul.1 hm
      obtain ⟨hne, hds⟩ := mem_many_oneOf.1 hds
      refine ⟨[], '.' :: ds, ex, rfl, by simp, .inr ⟨ds, rfl, hds⟩, ?_, he⟩
      rintro ⟨-, hl⟩
      have := List.length_pos_iff.2 hne
      simp only [List.length_cons] at hl
      omega
  · rintro ⟨whole, fraction, ex, rfl, hw, hf, hn, he⟩
    refine ⟨whole ++ fraction, (Language.mem_add _ _ _).2 ?_, ex, he, List.append_assoc ..⟩
    by_cases hne : whole = []
    · subst hne
      rcases hf with rfl | ⟨ds, rfl, hds⟩
      · exact absurd ⟨rfl, Nat.zero_le 1⟩ hn
      · refine .inr (mem_point_mul.2 ⟨ds, rfl, mem_many_oneOf.2 ⟨?_, hds⟩⟩)
        rintro rfl
        exact hn ⟨rfl, Nat.le_refl 1⟩
    · refine .inl (Language.append_mem_mul (mem_many_oneOf.2 ⟨hne, hw⟩) (mem_perhaps.2 ?_))
      rcases hf with rfl | ⟨ds, rfl, hds⟩
      · exact .inl rfl
      · exact .inr (mem_point_mul.2 ⟨ds, rfl, mem_oneOf_kstar.2 hds⟩)

/-- The characters of numerals. -/
theorem mem_of_mem_number {m : List Char} (h : m ∈ number) {c : Char} (hc : c ∈ m) :
    isDigit c = true ∨ c ∈ ['.', 'e', 'E', '+', '-'] := by
  obtain ⟨whole, fraction, ex, rfl, hw, hf, -, hex⟩ := mem_number.1 h
  rcases List.mem_append.1 hc with hc | hc
  · exact .inl (hw c hc)
  · rcases List.mem_append.1 hc with hc | hc
    · rcases hf with rfl | ⟨ds, rfl, hds⟩
      · cases hc
      · rcases List.mem_cons.1 hc with rfl | hc
        · exact .inr (by decide)
        · exact .inl (hds c hc)
    · rcases mem_perhaps.1 hex with rfl | hex
      · cases hc
      · obtain ⟨d, sign, ds, rfl, hd, hsign, -, hds⟩ := mem_exponent.1 hex
        rcases List.mem_cons.1 hc with rfl | hc
        · rcases hd with rfl | rfl
          · exact .inr (by decide)
          · exact .inr (by decide)
        · rcases List.mem_append.1 hc with hc | hc
          · rcases hsign with rfl | rfl | rfl
            · cases hc
            · rw [List.mem_singleton.1 hc]
              exact .inr (by decide)
            · rw [List.mem_singleton.1 hc]
              exact .inr (by decide)
          · exact .inl (hds c hc)

end Terminal

/-- The text is a name and not the keyword. -/
def IsIdentifier (x : String) : Prop := x.toList ∈ Terminal.name ∧ x ≠ "det"

/-- The piece is a text of its terminal. -/
def Piece.IsLexeme : Piece → Prop
  | .token (.name x) => IsIdentifier x
  | .token (.number x) => x.toList ∈ Terminal.number
  | .token _ => True
  | .blank s => s ∈ Terminal.blank
  | .comment s => s ∈ Terminal.comment

/-- The token of a piece that is not skipped. -/
def Piece.token? : Piece → Option Token
  | .token t => some t
  | _ => none

theorem Piece.token?_token (t : Token) : (Piece.token t).token? = some t := rfl

namespace Lexer

open Terminal

/-! ## The greedy reader of numerals -/

theorem takeSign_of_isDigit {s : List Char} (h : ∀ c ∈ s.head?, isDigit c = true) :
    takeSign s = ([], s) := by
  unfold takeSign
  split
  · exact absurd (h '+' rfl) (by decide)
  · exact absurd (h '-' rfl) (by decide)
  · rfl

theorem takeSign_fst (s : List Char) :
    (takeSign s).1 = [] ∨ (takeSign s).1 = ['+'] ∨ (takeSign s).1 = ['-'] := by
  unfold takeSign
  split <;> simp

theorem takeExponent_mem (s : List Char) : (takeExponent s).1 ∈ perhaps exponent := by
  rw [mem_perhaps]
  unfold takeExponent
  split
  · exact .inl rfl
  · rename_i c s
    dsimp only
    split
    · rename_i h
      refine .inr (mem_exponent.2 ⟨c, _, _, rfl, h.1, takeSign_fst s, h.2, ?_⟩)
      intro d hd
      exact List.mem_takeWhile_imp hd
    · exact .inl rfl

/-- No exponent at the head of a text is longer than the one that is taken. -/
theorem length_le_takeExponent {ex : List Char} (rest : List Char) (h : ex ∈ perhaps exponent) :
    ex.length ≤ (takeExponent (ex ++ rest)).1.length := by
  rcases mem_perhaps.1 h with rfl | h
  · exact Nat.zero_le _
  · obtain ⟨c, sign, ds, rfl, hc, hs, hne, hds⟩ := mem_exponent.1 h
    have htake : takeSign (sign ++ ds ++ rest) = (sign, ds ++ rest) := by
      rcases hs with rfl | rfl | rfl
      · rw [List.nil_append]
        refine takeSign_of_isDigit fun d hd => ?_
        obtain ⟨e, r, rfl⟩ := List.exists_cons_of_ne_nil hne
        rw [List.cons_append, List.head?_cons, Option.mem_some] at hd
        exact hds d (hd ▸ List.mem_cons_self)
      · rfl
      · rfl
    have hdigits : (ds ++ rest).takeWhile isDigit = ds ++ rest.takeWhile isDigit :=
      List.takeWhile_append_of_pos hds
    unfold takeExponent
    rw [List.cons_append]
    dsimp only
    rw [htake]
    dsimp only
    rw [hdigits, if_pos ⟨hc, by simp [hne]⟩]
    simp only [List.cons_append, List.length_cons, List.length_append]
    omega

theorem takeFraction_fst (s : List Char) :
    (takeFraction s).1 = [] ∨
      ∃ ds, (takeFraction s).1 = '.' :: ds ∧ ∀ c ∈ ds, isDigit c = true := by
  unfold takeFraction
  split
  · exact .inr ⟨_, rfl, fun c hc => List.mem_takeWhile_imp hc⟩
  · exact .inl rfl

theorem length_takeFraction {fraction : List Char}
    (hf : fraction = [] ∨ ∃ ds, fraction = '.' :: ds ∧ ∀ c ∈ ds, isDigit c = true)
    (rest : List Char) : fraction.length ≤ (takeFraction (fraction ++ rest)).1.length := by
  rcases hf with rfl | ⟨ds, rfl, hds⟩
  · exact Nat.zero_le _
  · have : (takeFraction ('.' :: ds ++ rest)).1 = '.' :: (ds ++ rest.takeWhile isDigit) :=
      congrArg ('.' :: ·) (List.takeWhile_append_of_pos hds)
    rw [this]
    simp only [List.length_cons, List.length_append]
    omega

/-- The mark of an exponent is neither a digit nor the point. -/
theorem head_of_mem_exponent {ex : List Char} (h : ex ∈ exponent) :
    ∃ c r, ex = c :: r ∧ isDigit c = false ∧ c ≠ '.' := by
  obtain ⟨c, sign, ds, rfl, hc, -⟩ := mem_exponent.1 h
  rcases hc with rfl | rfl
  · exact ⟨_, _, rfl, by decide, by decide⟩
  · exact ⟨_, _, rfl, by decide, by decide⟩

/-- Greed on the fraction loses nothing: an exponent behind a fraction stops its digits. -/
theorem length_le_takeFraction {fraction ex : List Char} (rest : List Char)
    (hf : fraction = [] ∨ ∃ ds, fraction = '.' :: ds ∧ ∀ c ∈ ds, isDigit c = true)
    (he : ex ∈ perhaps exponent) :
    fraction.length + ex.length ≤ (takeFraction (fraction ++ (ex ++ rest))).1.length +
      (takeExponent (takeFraction (fraction ++ (ex ++ rest))).2).1.length := by
  rcases mem_perhaps.1 he with rfl | hx
  · have := length_takeFraction hf ([] ++ rest)
    rw [List.length_nil]
    omega
  · have hstop : takeFraction (fraction ++ (ex ++ rest)) = (fraction, ex ++ rest) := by
      obtain ⟨c, r, rfl, hc, hp⟩ := head_of_mem_exponent hx
      rcases hf with rfl | ⟨ds, rfl, hds⟩
      · unfold takeFraction
        split
        · rename_i h
          rw [List.nil_append, List.cons_append, List.cons.injEq] at h
          exact absurd h.1 hp
        · rfl
      · show ('.' :: (ds ++ (c :: r ++ rest)).takeWhile isDigit,
          (ds ++ (c :: r ++ rest)).dropWhile isDigit) = _
        rw [List.takeWhile_append_of_pos hds, List.dropWhile_append_of_pos hds, List.cons_append,
          List.takeWhile_cons_of_neg (by simp [hc]), List.dropWhile_cons_of_neg (by simp [hc]),
          List.append_nil]
    rw [hstop]
    have := length_le_takeExponent rest he
    dsimp only
    omega

theorem takeNumber?_mem {s text rest : List Char} (h : takeNumber? s = some (text, rest)) :
    text ∈ number := by
  unfold takeNumber? at h
  dsimp only at h
  split at h
  · cases h
  · rename_i hn
    cases h
    rw [List.append_assoc]
    exact mem_number.2 ⟨_, _, _, rfl, fun c hc => List.mem_takeWhile_imp hc, takeFraction_fst _, hn,
      takeExponent_mem _⟩

/-- No numeral at the head of a text is longer than the one that is taken. -/
theorem length_le_takeNumber? {m : List Char} (rest : List Char) (h : m ∈ number) :
    ∃ text rest', takeNumber? (m ++ rest) = some (text, rest') ∧ m.length ≤ text.length := by
  obtain ⟨whole, fraction, ex, rfl, hw, hf, hn, he⟩ := mem_number.1 h
  have hsplit : whole ++ (fraction ++ ex) ++ rest = whole ++ (fraction ++ (ex ++ rest)) := by
    simp only [List.append_assoc]
  have hwhole : (whole ++ (fraction ++ (ex ++ rest))).takeWhile isDigit =
      whole ++ (fraction ++ (ex ++ rest)).takeWhile isDigit := List.takeWhile_append_of_pos hw
  have hdrop : (whole ++ (fraction ++ (ex ++ rest))).dropWhile isDigit =
      (fraction ++ (ex ++ rest)).dropWhile isDigit := List.dropWhile_append_of_pos hw
  unfold takeNumber?
  dsimp only
  rw [hsplit, hwhole, hdrop]
  -- either nothing stands behind the whole part, or what does stops its digits
  by_cases hb : fraction ++ ex = []
  · obtain ⟨rfl, rfl⟩ := List.append_eq_nil_iff.1 hb
    have hne : whole ≠ [] := fun hc => hn ⟨hc, Nat.zero_le 1⟩
    rw [if_neg (fun hc => hne (List.append_eq_nil_iff.1 hc.1).1)]
    refine ⟨_, _, rfl, ?_⟩
    simp only [List.length_append, List.length_nil]
    omega
  · obtain ⟨c, r, hcr, hc⟩ : ∃ c r, fraction ++ ex = c :: r ∧ isDigit c = false := by
      rcases hf with rfl | ⟨ds, rfl, hds⟩
      · rw [List.nil_append] at hb ⊢
        obtain ⟨c, r, h, hc, -⟩ := head_of_mem_exponent ((mem_perhaps.1 he).resolve_left hb)
        exact ⟨c, r, h, hc⟩
      · exact ⟨'.', _, rfl, by decide⟩
    have htake : (fraction ++ (ex ++ rest)).takeWhile isDigit = [] := by
      rw [← List.append_assoc, hcr, List.cons_append, List.takeWhile_cons_of_neg (by simp [hc])]
    have hkeep : (fraction ++ (ex ++ rest)).dropWhile isDigit = fraction ++ (ex ++ rest) := by
      rw [← List.append_assoc, hcr, List.cons_append, List.dropWhile_cons_of_neg (by simp [hc])]
    rw [htake, hkeep, List.append_nil]
    have hle := length_le_takeFraction rest hf he
    have hfl : fraction.length ≤ (takeFraction (fraction ++ (ex ++ rest))).1.length :=
      length_takeFraction hf (ex ++ rest)
    rw [if_neg (fun hc => hn ⟨hc.1, hfl.trans hc.2⟩)]
    refine ⟨_, _, rfl, ?_⟩
    simp only [List.length_append]
    omega

theorem isNumeral_iff {s : List Char} : isNumeral s = true ↔ s ∈ number := by
  unfold isNumeral
  rw [beq_iff_eq]
  constructor
  · exact takeNumber?_mem
  · intro h
    obtain ⟨text, rest, htake, hle⟩ := length_le_takeNumber? [] h
    rw [List.append_nil] at htake
    obtain rfl : text ++ rest = s := takeNumber?_append htake
    have hnil : rest = [] := by
      rw [List.length_append] at hle
      exact List.length_eq_zero_iff.1 (by omega)
    rw [hnil, List.append_nil] at htake ⊢
    exact htake

/-! ## First characters -/

theorem toNat_of_isNameStart {c : Char} (h : isNameStart c = true) :
    65 ≤ c.toNat ∧ c.toNat ≤ 122 := by
  unfold isNameStart Char.isAlpha Char.isUpper Char.isLower at h
  simp only [Bool.or_eq_true, Bool.and_eq_true, decide_eq_true_eq, beq_iff_eq, ge_iff_le,
    UInt32.le_iff_toNat_le] at h
  rcases h with (h | h) | rfl
  · exact ⟨h.1, h.2.trans (by decide)⟩
  · exact ⟨le_trans (by decide) h.1, h.2⟩
  · decide

theorem not_isNameStart_of_isDigit {c : Char} (h : isDigit c = true) : isNameStart c = false := by
  have hz : ∀ z ∈ digitZeros, z + 10 ≤ 65 ∨ 122 < z := by decide
  obtain ⟨n, hn⟩ := Option.isSome_iff_exists.1 h
  obtain ⟨z, hf, -⟩ := Option.map_eq_some_iff.1 hn
  have hmem := hz z (List.mem_of_find?_eq_some hf)
  have hrange := List.find?_some hf
  simp only [Bool.and_eq_true, decide_eq_true_eq] at hrange
  rw [Bool.eq_false_iff]
  intro hc
  have := toNat_of_isNameStart hc
  omega

theorem isSkipped_iff {c : Char} :
    isSkipped c = true ↔ c = ' ' ∨ c = '\t' ∨ c = '\x0c' ∨ c = '\r' := by
  unfold isSkipped
  simp only [Bool.or_eq_true, beq_iff_eq, or_assoc]

theorem not_isSkipped_of_isNameStart {c : Char} (h : isNameStart c = true) :
    isSkipped c = false := by
  rw [Bool.eq_false_iff, Ne, isSkipped_iff]
  rintro (rfl | rfl | rfl | rfl) <;> revert h <;> decide

theorem not_isSkipped_of_isDigit {c : Char} (h : isDigit c = true) : isSkipped c = false := by
  rw [Bool.eq_false_iff, Ne, isSkipped_iff]
  rintro (rfl | rfl | rfl | rfl) <;> revert h <;> decide

theorem ne_hash_of_isNameStart {c : Char} (h : isNameStart c = true) : c ≠ '#' := by
  rintro rfl
  revert h
  decide

/-- A numeral starts with a digit or the point. -/
theorem exists_of_mem_number {m : List Char} (h : m ∈ number) :
    ∃ c r, m = c :: r ∧ (isDigit c = true ∨ c = '.') := by
  obtain ⟨whole, fraction, ex, rfl, hw, hf, hn, -⟩ := mem_number.1 h
  cases whole with
  | nil =>
    rcases hf with rfl | ⟨ds, rfl, -⟩
    · exact absurd ⟨rfl, Nat.zero_le 1⟩ hn
    · exact ⟨'.', _, rfl, .inr rfl⟩
  | cons c whole => exact ⟨c, _, rfl, .inl (hw c List.mem_cons_self)⟩

/-- The first character of a numeral starts nothing else. -/
theorem head_of_mem_number {m : List Char} (h : m ∈ number) :
    ∃ c r, m = c :: r ∧ isSkipped c = false ∧ c ≠ '#' ∧ isNameStart c = false := by
  obtain ⟨c, r, rfl, hc | rfl⟩ := exists_of_mem_number h
  · refine ⟨c, r, rfl, not_isSkipped_of_isDigit hc, ?_, not_isNameStart_of_isDigit hc⟩
    rintro rfl
    revert hc
    decide
  · exact ⟨'.', r, rfl, by decide, by decide, by decide⟩

theorem takeNumber?_cons_eq_none {c : Char} (hd : isDigit c = false) (hp : c ≠ '.')
    (s : List Char) : takeNumber? (c :: s) = none := by
  have hf : takeFraction (c :: s) = ([], c :: s) := by
    unfold takeFraction
    split
    · rename_i h
      exact absurd (List.cons.inj h).1 hp
    · rfl
  unfold takeNumber?
  dsimp only
  rw [List.takeWhile_cons_of_neg (by simp [hd]), List.dropWhile_cons_of_neg (by simp [hd]), hf,
    if_pos ⟨rfl, Nat.zero_le 1⟩]

/-! ## The longest match -/

theorem piece?_blank {c : Char} {r : List Char} (h : ∀ d ∈ c :: r, isSkipped d = true)
    (rest : List Char) : piece? (c :: r ++ rest) =
      some (.blank (c :: r ++ rest.takeWhile isSkipped), rest.dropWhile isSkipped) := by
  rw [List.forall_mem_cons] at h
  rw [List.cons_append]
  unfold piece?
  dsimp only
  rw [if_pos h.1, List.takeWhile_append_of_pos h.2, List.dropWhile_append_of_pos h.2,
    List.cons_append]

theorem piece?_comment {r : List Char} (h : ∀ d ∈ r, (d != '\n') = true) (rest : List Char) :
    piece? ('#' :: r ++ rest) =
      some (.comment ('#' :: r ++ rest.takeWhile (· != '\n')), rest.dropWhile (· != '\n')) := by
  rw [List.cons_append]
  unfold piece?
  dsimp only
  rw [if_neg (by decide), if_pos rfl, List.takeWhile_append_of_pos h,
    List.dropWhile_append_of_pos h, List.cons_append]

theorem piece?_word {c : Char} {r : List Char} (hc : isNameStart c = true)
    (hr : ∀ d ∈ r, isNameRest d = true) (rest : List Char) : piece? (c :: r ++ rest) =
      some (.token (.ofWord (c :: r ++ rest.takeWhile isNameRest)), rest.dropWhile isNameRest) := by
  rw [List.cons_append]
  unfold piece?
  dsimp only
  rw [if_neg (by simp [not_isSkipped_of_isNameStart hc]), if_neg (ne_hash_of_isNameStart hc),
    if_pos hc, List.takeWhile_append_of_pos hr, List.dropWhile_append_of_pos hr, List.cons_append]

theorem piece?_number {s text rest : List Char} (hs : text ∈ number)
    (h : takeNumber? s = some (text, rest)) :
    piece? s = some (.token (.number (String.ofList text)), rest) := by
  obtain ⟨c, r, rfl, h1, h2, h3⟩ := head_of_mem_number hs
  obtain rfl : c :: (r ++ rest) = s := takeNumber?_append h
  unfold piece?
  dsimp only
  rw [if_neg (by simp [h1]), if_neg h2, if_neg (by simp [h3]), h]

theorem piece?_ofChar? {c : Char} {t : Token} (h : Token.ofChar? c = some t) (rest : List Char) :
    piece? (c :: rest) = some (.token t, rest) := by
  have hc : isSkipped c = false ∧ c ≠ '#' ∧ isNameStart c = false ∧ isDigit c = false ∧
      c ≠ '.' := by
    unfold Token.ofChar? at h
    split at h <;> first | decide | cases h
  obtain ⟨h1, h2, h3, h4, h5⟩ := hc
  unfold piece?
  dsimp only
  rw [if_neg (by simp [h1]), if_neg h2, if_neg (by simp [h3]), takeNumber?_cons_eq_none h4 h5, h]
  rfl

theorem ofWord_of_ne {x : String} (h : x ≠ "det") : Token.ofWord x.toList = .name x := by
  unfold Token.ofWord
  rw [if_neg (fun hc => h (String.toList_injective hc)), String.ofList_toList]

theorem piece?_isLexeme {s rest : List Char} {p : Piece} (h : piece? s = some (p, rest)) :
    p.IsLexeme := by
  unfold piece? at h
  split at h
  · cases h
  · rename_i c s
    split at h
    · rename_i hc
      cases h
      refine mem_blank.2 ⟨List.cons_ne_nil _ _, ?_⟩
      rw [List.forall_mem_cons]
      exact ⟨hc, fun d hd => List.mem_takeWhile_imp hd⟩
    · split at h
      · rename_i hc
        cases h
        subst hc
        exact mem_comment.2 ⟨_, rfl, fun d hd => List.mem_takeWhile_imp (p := fun c => c != '\n') hd⟩
      · split at h
        · rename_i hc
          cases h
          unfold Token.ofWord
          split
          · trivial
          · rename_i hne
            refine ⟨?_, fun he => hne (by rw [← he, String.toList_ofList])⟩
            rw [String.toList_ofList]
            exact mem_name.2 ⟨c, _, rfl, hc, fun d hd => List.mem_takeWhile_imp hd⟩
        · split at h
          · rename_i text rest' hn
            cases h
            show (String.ofList text).toList ∈ number
            rw [String.toList_ofList]
            exact takeNumber?_mem hn
          · obtain ⟨t, ht, he⟩ := Option.map_eq_some_iff.1 h
            cases he
            unfold Token.ofChar? at ht
            split at ht <;> cases ht <;> trivial

theorem append_eq_of_length_le {a b : List Char} (h : (a ++ b).length ≤ a.length) : a ++ b = a := by
  have : b.length = 0 := by
    rw [List.length_append] at h
    omega
  rw [List.length_eq_zero_iff.1 this, List.append_nil]

/-- A word at the head of a text is no longer than the one that is cut off there. -/
theorem exists_piece?_word {w : List Char} {t : Token} (hw : w ∈ name) (ht : Token.ofWord w = t)
    (rest : List Char) : ∃ q rest', piece? (w ++ rest) = some (q, rest') ∧
      w.length ≤ q.chars.length ∧ (q.chars.length ≤ w.length → .token t = q) := by
  obtain ⟨c, r, rfl, hc, hr⟩ := mem_name.1 hw
  refine ⟨_, _, piece?_word hc hr rest, ?_, ?_⟩
  · simp only [Piece.chars, Token.text_ofWord, List.length_append]
    omega
  · intro hle
    simp only [Piece.chars, Token.text_ofWord] at hle
    rw [append_eq_of_length_le hle, ht]

/-- A lexeme at the head of a text is no longer than the piece that is cut off there, and if it is
as long it is that piece. -/
theorem exists_piece? {p : Piece} (h : p.IsLexeme) (rest : List Char) :
    ∃ q rest', piece? (p.chars ++ rest) = some (q, rest') ∧ p.chars.length ≤ q.chars.length ∧
      (q.chars.length ≤ p.chars.length → p = q) := by
  cases p with
  | blank s =>
    obtain ⟨hne, hs⟩ := mem_blank.1 h
    obtain ⟨c, r, rfl⟩ := List.exists_cons_of_ne_nil hne
    refine ⟨_, _, piece?_blank hs rest, ?_, fun hle => ?_⟩
    · simp only [Piece.chars, List.length_append]
      omega
    · exact congrArg Piece.blank (append_eq_of_length_le hle).symm
  | comment s =>
    obtain ⟨r, rfl, hr⟩ := mem_comment.1 h
    refine ⟨_, _, piece?_comment hr rest, ?_, fun hle => ?_⟩
    · simp only [Piece.chars, List.length_append]
      omega
    · exact congrArg Piece.comment (append_eq_of_length_le hle).symm
  | token t =>
    cases t with
    | name x => exact exists_piece?_word h.1 (ofWord_of_ne h.2) rest
    | det =>
      have hrest : ∀ c ∈ ['e', 't'], isNameRest c = true :=
        List.forall_mem_cons.2 ⟨rfl, List.forall_mem_singleton.2 rfl⟩
      exact exists_piece?_word (mem_name.2 ⟨'d', ['e', 't'], rfl, rfl, hrest⟩) rfl rest
    | number x =>
      obtain ⟨text, rest', hn, hle⟩ := length_le_takeNumber? rest h
      refine ⟨_, _, piece?_number (takeNumber?_mem hn) hn, ?_, fun hge => ?_⟩
      · simpa only [Piece.chars, Token.text, String.toList_ofList] using hle
      · simp only [Piece.chars, Token.text, String.toList_ofList] at hge
        have happ := takeNumber?_append hn
        have : text = x.toList := (List.append_inj happ (le_antisymm hge hle)).1
        rw [this, String.ofList_toList]
    | _ => exact ⟨_, _, piece?_ofChar? rfl rest, le_rfl, fun _ => rfl⟩

/-- A piece at the head of a text and the rest, such that no lexeme at the head of the text is
longer. -/
structure Longest (s : List Char) (p : Piece) (rest : List Char) : Prop where
  isLexeme : p.IsLexeme
  append : p.chars ++ rest = s
  longest : ∀ q : Piece, q.IsLexeme → q.chars <+: s → q.chars.length ≤ p.chars.length

/-- **Longest match.** The piece that is cut off a text is the longest lexeme at its head. -/
theorem piece?_eq_some_iff {s rest : List Char} {p : Piece} :
    piece? s = some (p, rest) ↔ Longest s p rest := by
  constructor
  · intro h
    refine ⟨piece?_isLexeme h, (piece?_spec h).1, ?_⟩
    rintro q hq ⟨r, rfl⟩
    obtain ⟨p', rest', hp, hle, -⟩ := exists_piece? hq r
    obtain ⟨rfl, -⟩ : p = p' ∧ rest = rest' := by
      rw [h] at hp
      simpa using hp
    exact hle
  · rintro ⟨hl, rfl, hmax⟩
    obtain ⟨q, rest', hq, -, heq⟩ := exists_piece? hl rest
    have happ := (piece?_spec hq).1
    obtain rfl := heq (hmax q (piece?_isLexeme hq) ⟨rest', happ⟩)
    rw [hq, List.append_cancel_left happ]

/-! ## Whole texts -/

/-- The text splits into the tokens, each the longest lexeme at its place, with blanks and comments
skipped. -/
inductive Splits : List Char → List Token → Prop where
  | nil : Splits [] []
  | token {s rest : List Char} {t : Token} {ts : List Token} :
    Longest s (.token t) rest → Splits rest ts → Splits s (t :: ts)
  | skip {s rest : List Char} {p : Piece} {ts : List Token} :
    p.token? = none → Longest s p rest → Splits rest ts → Splits s ts

theorem pieces_of_eq_some {s rest : List Char} {p : Piece} (h : piece? s = some (p, rest)) :
    pieces s = (p :: (pieces rest).1, (pieces rest).2) := by
  rw [pieces]
  split
  · rename_i hn
    rw [hn] at h
    cases h
  · rename_i hs
    rw [hs] at h
    cases h
    rfl

theorem splits_pieces {s : List Char} (h : (pieces s).2 = []) :
    Splits s ((pieces s).1.filterMap Piece.token?) := by
  fun_induction pieces s with
  | case1 s hs =>
    obtain rfl : s = [] := h
    exact .nil
  | case2 s p rest hs hlt ih =>
    have hl := piece?_eq_some_iff.1 hs
    cases hp : p.token? with
    | none =>
      rw [List.filterMap_cons_none hp]
      exact .skip hp hl (ih h)
    | some t =>
      rw [List.filterMap_cons_some hp]
      cases p with
      | token u =>
        obtain rfl : u = t := Option.some.inj hp
        exact .token hl (ih h)
      | blank _ => cases hp
      | comment _ => cases hp

/-- The lexer splits a text as the longest match does. -/
theorem splits_iff {s : List Char} {ts : List Token} :
    Splits s ts ↔ (pieces s).2 = [] ∧ (pieces s).1.filterMap Piece.token? = ts := by
  constructor
  · intro h
    induction h with
    | nil =>
      rw [pieces]
      exact ⟨rfl, rfl⟩
    | token hl _ ih =>
      rw [pieces_of_eq_some (piece?_eq_some_iff.2 hl)]
      exact ⟨ih.1, by rw [List.filterMap_cons_some (Piece.token?_token _), ih.2]⟩
    | skip hp hl _ ih =>
      rw [pieces_of_eq_some (piece?_eq_some_iff.2 hl)]
      exact ⟨ih.1, by rw [List.filterMap_cons_none hp, ih.2]⟩
  · rintro ⟨h, rfl⟩
    exact splits_pieces h

theorem Splits.isLexeme {s : List Char} {ts : List Token} (h : Splits s ts) :
    ∀ t ∈ ts, (Piece.token t).IsLexeme := by
  induction h with
  | nil =>
    intro t ht
    cases ht
  | token hl _ ih =>
    rw [List.forall_mem_cons]
    exact ⟨hl.isLexeme, ih⟩
  | skip _ _ _ ih => exact ih

theorem map_item_locate (p : Position) (ps : List Piece) :
    (locate p ps).map (·.item) = ps.filterMap Piece.token? := by
  induction ps generalizing p with
  | nil => rfl
  | cons piece ps ih =>
    cases piece with
    | token t =>
      rw [locate, List.map_cons, ih, List.filterMap_cons_some (Piece.token?_token t)]
    | blank s =>
      rw [locate, ih, List.filterMap_cons_none rfl]
    | comment s =>
      rw [locate, ih, List.filterMap_cons_none rfl]

/-- A text splits into the tokens that the lexer finds, provided that it finds no character at which
nothing starts. -/
theorem splits_iff_lex {text : String} {ts : List Token} :
    Splits text.toList ts ↔ (lex text).stuck = none ∧ (lex text).tokens.map (·.item) = ts := by
  rw [splits_iff]
  unfold lex
  dsimp only
  rw [map_item_locate, Option.map_eq_none_iff, List.head?_eq_none_iff]

end Lexer

end MatrixCalc
