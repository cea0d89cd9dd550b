import MatrixCalc.Eval
import MatrixCalc.Proofs.Decimal.NumberText

/-!
# Every numeral is read

The lexer and the reader of numerals are written apart: one takes the longest text of the terminal,
the other cuts a text at its marks and checks the parts. What the terminal allows is read
(`readNumeral?_of_mem_number`), in the digits of any script, and nothing else is
(`mem_number_of_readNumeral?`).

A number in a tree is checked as the lexer would and then read as any number is, which takes more texts.
The two agree: what passes the check is read, and as a numeral (`readNumber?_of_mem_number`), so it has a
value (`Value.ofNumeral_of_mem_number`).
-/

namespace MatrixCalc

open Text

namespace Numeral

theorem exponent?_of_mem {c : Char} {e : List Char} (h : c :: e ∈ Terminal.exponent) :
    ∃ n, exponent? e = some n := by
  obtain ⟨_, sign, ds, heq, -, hsign, hne, hds⟩ := Terminal.mem_exponent.1 h
  obtain ⟨rfl, rfl⟩ := List.cons.inj heq
  have hvalue := digits?_eq hne hds
  rcases hsign with rfl | rfl | rfl
  · -- Without a sign the first digit decides that the last row of the match is taken.
    refine ⟨digitsValue ds, ?_⟩
    rw [List.nil_append]
    unfold exponent?
    split
    · exact absurd (hds '+' List.mem_cons_self) (by decide)
    · exact absurd (hds '-' List.mem_cons_self) (by decide)
    · rw [hvalue]
      rfl
  · exact ⟨digitsValue ds, by
      show (digits? ds).map Int.ofNat = _
      rw [hvalue]
      rfl⟩
  · exact ⟨-(digitsValue ds : ℤ), by
      show (digits? ds).map (fun n => -(n : ℤ)) = _
      rw [hvalue]
      rfl⟩

theorem mantissa?_of_digits {whole fraction : List Char} (hw : ∀ c ∈ whole, isDigit c = true)
    (hf : fraction = [] ∨ ∃ ds, fraction = '.' :: ds ∧ ∀ c ∈ ds, isDigit c = true)
    (hn : ¬ (whole = [] ∧ fraction.length ≤ 1)) : ∃ p, mantissa? (whole ++ fraction) = some p := by
  have hpoint : ∀ c ∈ whole, (c == '.') = false :=
    fun c hc => beq_eq_false_iff_ne.2 (ne_mark_of_isDigit (hw c hc)).1
  unfold mantissa?
  rcases hf with rfl | ⟨ds, rfl, hds⟩
  · have hne : whole ≠ [] := fun h => hn ⟨h, Nat.zero_le 1⟩
    rw [List.append_nil, cut_eq_none hpoint]
    dsimp only
    rw [if_pos ⟨hne, List.all_eq_true.2 hw⟩]
    exact ⟨_, rfl⟩
  · have hne : whole ≠ [] ∨ ds ≠ [] := by
      by_contra hc
      push Not at hc
      exact hn ⟨hc.1, by rw [hc.2]; exact le_rfl⟩
    rw [cut_eq_some hpoint (by decide)]
    dsimp only
    rw [if_pos ⟨hne, List.all_eq_true.2 hw, List.all_eq_true.2 hds⟩]
    exact ⟨_, rfl⟩

theorem not_exponentMark_of_isDigit {c : Char} (h : isDigit c = true) :
    (c == 'e' || c == 'E') = false := by
  obtain ⟨-, h1, h2⟩ := ne_mark_of_isDigit h
  rw [beq_eq_false_iff_ne.2 h1, beq_eq_false_iff_ne.2 h2]
  rfl

theorem ofChars?_of_mem_number {s : List Char} (h : s ∈ Terminal.number) :
    ∃ n, ofChars? s = some n := by
  obtain ⟨whole, fraction, ex, rfl, hw, hf, hn, he⟩ := Terminal.mem_number.1 h
  obtain ⟨p, hp⟩ := mantissa?_of_digits hw hf hn
  have hmark : ∀ c ∈ whole ++ fraction, (c == 'e' || c == 'E') = false := by
    rw [List.forall_mem_append]
    refine ⟨fun c hc => not_exponentMark_of_isDigit (hw c hc), ?_⟩
    rcases hf with rfl | ⟨ds, rfl, hds⟩
    · exact fun c hc => absurd hc List.not_mem_nil
    · exact List.forall_mem_cons.2 ⟨rfl, fun c hc => not_exponentMark_of_isDigit (hds c hc)⟩
  rw [← List.append_assoc]
  unfold ofChars?
  rcases Terminal.mem_perhaps.1 he with rfl | he
  · rw [List.append_nil, cut_eq_none hmark]
    dsimp only
    rw [hp]
    exact ⟨_, rfl⟩
  · obtain ⟨c, sign, ds, rfl, hc, -⟩ := Terminal.mem_exponent.1 he
    obtain ⟨n, hexp⟩ := exponent?_of_mem he
    rw [cut_eq_some hmark (by rcases hc with rfl | rfl <;> rfl)]
    dsimp only
    rw [hp, hexp]
    exact ⟨_, rfl⟩

/-! ## Nothing else is read -/

theorem eq_of_cut_none {mark : Char → Bool} {s a : List Char} (h : cut mark s = (a, none)) :
    s = a := by
  induction s generalizing a with
  | nil => exact (Prod.mk.inj h).1
  | cons c s ih =>
    unfold cut at h
    split at h
    · cases h
    · obtain ⟨rfl, hrest⟩ := Prod.mk.inj h
      exact congrArg (c :: ·) (ih (Prod.ext rfl hrest))

theorem exists_of_cut_some {mark : Char → Bool} {s a b : List Char}
    (h : cut mark s = (a, some b)) : ∃ m, mark m = true ∧ s = a ++ m :: b := by
  induction s generalizing a with
  | nil => cases h
  | cons c s ih =>
    unfold cut at h
    split at h
    · rename_i hc
      cases h
      exact ⟨c, hc, rfl⟩
    · obtain ⟨rfl, hrest⟩ := Prod.mk.inj h
      obtain ⟨m, hm, hs⟩ := ih (Prod.ext rfl hrest)
      exact ⟨m, hm, congrArg (c :: ·) hs⟩

theorem isDigit_of_digits? {s : List Char} {n : ℕ} (h : digits? s = some n) :
    s ≠ [] ∧ ∀ c ∈ s, isDigit c = true := by
  unfold digits? at h
  split at h
  · rename_i hs
    exact ⟨hs.1, List.all_eq_true.1 hs.2⟩
  · cases h

theorem mem_exponent_of_exponent? {c : Char} {e : List Char} {n : ℤ} (hc : c = 'e' ∨ c = 'E')
    (h : exponent? e = some n) : c :: e ∈ Terminal.exponent := by
  unfold exponent? at h
  rw [Terminal.mem_exponent]
  split at h
  · obtain ⟨k, hk, -⟩ := Option.map_eq_some_iff.1 h
    exact ⟨c, ['+'], _, rfl, hc, .inr (.inl rfl), isDigit_of_digits? hk⟩
  · obtain ⟨k, hk, -⟩ := Option.map_eq_some_iff.1 h
    obtain ⟨j, hj, -⟩ := Option.bind_eq_some_iff.1 hk
    exact ⟨c, ['-'], _, rfl, hc, .inr (.inr rfl), isDigit_of_digits? hj⟩
  · obtain ⟨k, hk, -⟩ := Option.map_eq_some_iff.1 h
    exact ⟨c, [], e, rfl, hc, .inl rfl, isDigit_of_digits? hk⟩

/-- What is read as a mantissa is digits with at most one point, and is not the point alone. -/
theorem exists_of_mantissa? {s : List Char} {p : List Char × List Char}
    (h : mantissa? s = some p) : ∃ whole fraction, s = whole ++ fraction ∧
      (∀ c ∈ whole, isDigit c = true) ∧
      (fraction = [] ∨ ∃ ds, fraction = '.' :: ds ∧ ∀ c ∈ ds, isDigit c = true) ∧
      ¬ (whole = [] ∧ fraction.length ≤ 1) := by
  unfold mantissa? at h
  split at h
  · rename_i whole hcut
    split at h
    · rename_i hs
      exact ⟨whole, [], by rw [List.append_nil, eq_of_cut_none hcut], List.all_eq_true.1 hs.2,
        .inl rfl, fun hn => hs.1 hn.1⟩
    · cases h
  · rename_i whole ds hcut
    obtain ⟨m, hm, rfl⟩ := exists_of_cut_some hcut
    obtain rfl := beq_iff_eq.1 hm
    split at h
    · rename_i hs
      refine ⟨whole, '.' :: ds, rfl, List.all_eq_true.1 hs.2.1,
        .inr ⟨ds, rfl, List.all_eq_true.1 hs.2.2⟩, ?_⟩
      rintro ⟨hwhole, hlength⟩
      have hds : ds = [] := List.length_eq_zero_iff.1 (by rw [List.length_cons] at hlength; omega)
      exact hs.1.elim (· hwhole) (· hds)
    · cases h

theorem mem_number_of_ofChars? {s : List Char} {n : Numeral} (h : ofChars? s = some n) :
    s ∈ Terminal.number := by
  unfold ofChars? at h
  split at h
  · rename_i m hcut
    obtain ⟨p, hp, -⟩ := Option.map_eq_some_iff.1 h
    obtain ⟨whole, fraction, rfl, hw, hf, hn⟩ := exists_of_mantissa? hp
    rw [eq_of_cut_none hcut]
    exact Terminal.mem_number.2 ⟨whole, fraction, [], by rw [List.append_nil], hw, hf, hn,
      Terminal.mem_perhaps.2 (.inl rfl)⟩
  · rename_i m e hcut
    obtain ⟨c, hc, rfl⟩ := exists_of_cut_some hcut
    split at h
    · rename_i p k hp he
      obtain ⟨whole, fraction, rfl, hw, hf, hn⟩ := exists_of_mantissa? hp
      have hmark : c = 'e' ∨ c = 'E' := by simpa using hc
      exact Terminal.mem_number.2 ⟨whole, fraction, c :: e, List.append_assoc .., hw, hf, hn,
        Terminal.mem_perhaps.2 (.inr (mem_exponent_of_exponent? hmark he))⟩
    · cases h

end Numeral

theorem readNumeral?_of_mem_number {text : String} (h : text.toList ∈ Terminal.number) :
    ∃ x, readNumeral? text = some x := by
  obtain ⟨n, hn⟩ := Numeral.ofChars?_of_mem_number h
  unfold readNumeral?
  rw [hn]
  exact ⟨_, rfl⟩

theorem mem_number_of_readNumeral? {text : String} {x : Float} (h : readNumeral? text = some x) :
    text.toList ∈ Terminal.number := by
  obtain ⟨n, hn, -⟩ := Option.map_eq_some_iff.1 h
  exact Numeral.mem_number_of_ofChars? hn

/-! ## Check and reader agree -/

/-- A numeral starts with neither a sign nor a letter of the other numbers. -/
theorem magnitude?_of_mem_number {s : List Char} (h : s ∈ Terminal.number) :
    readNumber?.magnitude? s = readNumeral? (String.ofList s) := by
  obtain ⟨c, r, rfl, hc⟩ := Lexer.exists_of_mem_number h
  have hword : ∀ d w, isDigit d = false → d ≠ '.' → c :: r ≠ d :: w := by
    rintro d w hdigit hpoint heq
    obtain rfl := (List.cons.inj heq).1
    rcases hc with hc | hc
    · rw [hc] at hdigit
      cases hdigit
    · exact hpoint hc
  have hnan : c :: r ≠ "nan".toList := hword 'n' ['a', 'n'] (by decide) (by decide)
  have hinf : c :: r ≠ "inf".toList := hword 'i' ['n', 'f'] (by decide) (by decide)
  unfold readNumber?.magnitude?
  rw [if_neg hnan, if_neg hinf]

theorem readNumber?_of_mem_number {text : String} (h : text.toList ∈ Terminal.number) :
    readNumber? text = readNumeral? text := by
  have hmagnitude := magnitude?_of_mem_number h
  rw [String.ofList_toList] at hmagnitude
  obtain ⟨c, r, heq, hc⟩ := Lexer.exists_of_mem_number h
  unfold readNumber?
  split
  · rename_i hsign
    obtain rfl := (List.cons.inj (heq.symm.trans hsign)).1
    exact absurd hc (by decide)
  · rename_i hsign
    obtain rfl := (List.cons.inj (heq.symm.trans hsign)).1
    exact absurd hc (by decide)
  · exact hmagnitude

theorem Value.ofNumeral_of_mem_number {text : String} (h : text.toList ∈ Terminal.number) {x : Float}
    (hx : readNumeral? text = some x) : ofNumeral text = .ok (.scalar x) := by
  unfold ofNumeral
  rw [if_pos (Lexer.isNumeral_iff.2 h), readNumber?_of_mem_number h, hx]

theorem Value.ofNumeral_of_not_mem_number {text : String} (h : text.toList ∉ Terminal.number) :
    ofNumeral text = .error (.malformedNumber text) := by
  unfold ofNumeral
  rw [if_neg (fun hcheck => h (Lexer.isNumeral_iff.1 hcheck))]

end MatrixCalc
