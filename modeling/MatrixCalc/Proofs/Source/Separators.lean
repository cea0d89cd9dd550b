import MatrixCalc.Proofs.Source.Cut
import MatrixCalc.Proofs.Source.Exact
import MatrixCalc.Text.Blank

/-!
# Programs are joined by separators

Two texts with a separator between them are read as the two texts one after the other
(`parseProgram_join_iff`).

1. No lexeme goes over a separator: a lexeme that holds one is that token, or a comment over a
   semicolon (`eq_token_of_separator_mem`). So what is joined to a text does not change its cut
   (`Cut.join`), and a text that cannot be cut to its end cannot be when it is joined.
2. The machine is back at its start behind a separator, with the statements before it set aside
   (`ProgramState.run_behind`), so a word is a program if and only if the words on both sides of a
   separator are (`program_join_iff`).
-/

namespace MatrixCalc

open Text Grammar

/-! ## The characters of tokens -/

theorem isBlank_eq_false_of_le {c : Char} (h : 33 ≤ c.toNat) (h' : c.toNat ≤ 126) :
    isBlank c = false := by
  rw [Bool.eq_false_iff]
  intro hc
  obtain ⟨r, hr, hlo, hhi⟩ := inRanges_iff.1 hc
  have hranges : ∀ r ∈ blankRanges, r.2 ≤ 32 ∨ 127 ≤ r.1 := by decide
  have := hranges r hr
  omega

theorem isBlank_eq_false_of_isDigit {c : Char} (h : isDigit c = true) : isBlank c = false := by
  rw [Bool.eq_false_iff]
  intro hc
  obtain ⟨r, hr, hlo, hhi⟩ := inRanges_iff.1 hc
  obtain ⟨n, hn⟩ := Option.isSome_iff_exists.1 h
  obtain ⟨z, hf, -⟩ := Option.map_eq_some_iff.1 hn
  have hrange := List.find?_some hf
  simp only [Bool.and_eq_true, decide_eq_true_eq] at hrange
  have hapart : ∀ z ∈ digitZeros, ∀ r ∈ blankRanges, z + 10 ≤ r.1 ∨ r.2 < z := by decide
  have := hapart z (List.mem_of_find?_eq_some hf) r hr
  omega

theorem toNat_of_isNameRest {c : Char} (h : Lexer.isNameRest c = true) :
    48 ≤ c.toNat ∧ c.toNat ≤ 122 ∧ c.toNat ≠ 59 := by
  unfold Lexer.isNameRest Char.isAlphanum Char.isAlpha Char.isUpper Char.isLower Char.isDigit at h
  simp only [Bool.or_eq_true, Bool.and_eq_true, decide_eq_true_eq, beq_iff_eq, ge_iff_le,
    UInt32.le_iff_toNat_le] at h
  change (((65 ≤ c.toNat ∧ c.toNat ≤ 90) ∨ (97 ≤ c.toNat ∧ c.toNat ≤ 122)) ∨
    (48 ≤ c.toNat ∧ c.toNat ≤ 57)) ∨ c = '_' at h
  rcases h with h | rfl
  · omega
  · decide

theorem isNameRest_of_isNameStart {c : Char} (h : Lexer.isNameStart c = true) :
    Lexer.isNameRest c = true := by
  unfold Lexer.isNameStart at h
  unfold Lexer.isNameRest Char.isAlphanum
  simp only [Bool.or_eq_true] at h ⊢
  exact h.imp .inl id

theorem isNameRest_of_mem_name {x : List Char} (hx : x ∈ Terminal.name) {c : Char} (hc : c ∈ x) :
    Lexer.isNameRest c = true := by
  obtain ⟨d, r, rfl, hd, hr⟩ := Terminal.mem_name.1 hx
  rcases List.mem_cons.1 hc with rfl | hc
  · exact isNameRest_of_isNameStart hd
  · exact hr c hc

theorem not_blank_of_all {s : List Char} (h : (s.all fun c => !isBlank c && c != ';') = true)
    {c : Char} (hc : c ∈ s) : isBlank c = false ∧ c ≠ ';' := by
  simpa using List.all_eq_true.1 h c hc

/-- A token that separates nothing holds neither blanks nor a semicolon. -/
theorem Token.not_blank_of_isLexeme {t : Token} (h : (Piece.token t).IsLexeme)
    (ht : t.isSeparator = false) {c : Char} (hc : c ∈ t.text.toList) :
    isBlank c = false ∧ c ≠ ';' := by
  cases t with
  | name x =>
    obtain ⟨hlo, hhi, hne⟩ := toNat_of_isNameRest (isNameRest_of_mem_name h.1 hc)
    refine ⟨isBlank_eq_false_of_le (by omega) (by omega), ?_⟩
    rintro rfl
    exact hne rfl
  | number x =>
    rcases Terminal.mem_of_mem_number h hc with hd | hd
    · refine ⟨isBlank_eq_false_of_isDigit hd, ?_⟩
      rintro rfl
      revert hd
      decide
    · exact not_blank_of_all (by decide) hd
  | semicolon => cases ht
  | lineEnd => cases ht
  | _ => exact not_blank_of_all (by decide) hc

/-! ## Cutting joined texts -/

namespace Lexer

section Join

variable {c : Char} {t : Token} (hc : Token.ofChar? c = some t) (ht : t.isSeparator = true)

include hc ht

theorem char_of_separator : (c = ';' ∧ t = .semicolon) ∨ (c = '\n' ∧ t = .lineEnd) := by
  have htext := Token.text_ofChar? hc
  cases t with
  | semicolon => exact .inl ⟨(List.cons.inj htext).1.symm, rfl⟩
  | lineEnd => exact .inr ⟨(List.cons.inj htext).1.symm, rfl⟩
  | _ => cases ht

/-- A lexeme that holds a separator is that token, or a comment over a semicolon. -/
theorem eq_token_of_separator_mem {p : Piece} (hp : p.IsLexeme) (hmem : c ∈ p.chars) :
    p = .token t ∨ c = ';' ∧ ∃ r, p = .comment r := by
  have hchar := char_of_separator hc ht
  cases p with
  | token u =>
    left
    by_cases hu : u.isSeparator = true
    · have hcu : Token.ofChar? c = some u := by
        cases u with
        | semicolon =>
          rw [List.mem_singleton.1 hmem]
          rfl
        | lineEnd =>
          rw [List.mem_singleton.1 hmem]
          rfl
        | _ => cases hu
      rw [hc, Option.some.injEq] at hcu
      rw [hcu]
    · obtain ⟨hblank, hne⟩ := Token.not_blank_of_isLexeme hp (Bool.eq_false_iff.2 hu) hmem
      rcases hchar with ⟨rfl, -⟩ | ⟨rfl, -⟩
      · exact absurd rfl hne
      · exact absurd hblank (by decide)
  | blank s =>
    have hskip := (Terminal.mem_blank.1 hp).2 c hmem
    rcases hchar with ⟨rfl, -⟩ | ⟨rfl, -⟩
    · exact absurd hskip (by decide)
    · exact absurd hskip (by decide)
  | comment s =>
    rcases hchar with ⟨rfl, -⟩ | ⟨rfl, -⟩
    · exact .inr ⟨rfl, s, rfl⟩
    · obtain ⟨r, rfl, hr⟩ := Terminal.mem_comment.1 hp
      rcases List.mem_cons.1 hmem with h | h
      · exact absurd h (by decide)
      · exact absurd rfl (bne_iff_ne.1 (hr _ h))

/-- A lexeme at the head of a joined text is one of the first text, unless that is a comment which a
semicolon does not end. -/
theorem prefix_or_comment {s b : List Char} {p : Piece} (hp : p.IsLexeme) (hs : s ≠ [])
    (h : p.chars <+: s ++ c :: b) :
    p.chars <+: s ∨ c = ';' ∧ ∃ r, s = '#' :: r ∧ ∀ d ∈ r, (d != '\n') = true := by
  rcases List.prefix_or_prefix_of_prefix h (List.prefix_append s (c :: b)) with hps | hsp
  · exact .inl hps
  · obtain ⟨r, hr⟩ := hsp
    cases r with
    | nil =>
      rw [List.append_nil] at hr
      exact .inl ⟨[], by rw [List.append_nil, hr]⟩
    | cons d r =>
      -- the lexeme is longer than the first text, so it holds the separator
      obtain ⟨b', hb'⟩ := h
      rw [← hr, List.append_assoc, List.append_cancel_left_eq, List.cons_append,
        List.cons.injEq] at hb'
      obtain ⟨rfl, -⟩ := hb'
      have hmem : d ∈ p.chars := by
        rw [← hr]
        exact List.mem_append_right _ List.mem_cons_self
      rcases eq_token_of_separator_mem hc ht hp hmem with rfl | ⟨rfl, q, rfl⟩
      · exfalso
        obtain ⟨e, s, rfl⟩ := List.exists_cons_of_ne_nil hs
        rw [Piece.chars, Token.text_ofChar? hc] at hr
        simp at hr
      · refine .inr ⟨rfl, ?_⟩
        obtain ⟨r', rfl, hr'⟩ := Terminal.mem_comment.1 hp
        obtain ⟨e, s, rfl⟩ := List.exists_cons_of_ne_nil hs
        obtain ⟨rfl, rfl⟩ := List.cons.inj hr
        exact ⟨s, rfl, fun d hd => hr' d (List.mem_append_left _ hd)⟩

end Join

/-- The whole text is cut, and its last piece is a comment. -/
def EndsInComment (s : List Char) : Prop := ∃ ps r, Cut s (ps ++ [.comment r]) []

theorem EndsInComment.cons {s middle : List Char} {p : Piece} (hl : Longest s p middle)
    (h : EndsInComment middle) : EndsInComment s := by
  obtain ⟨ps, r, hcut⟩ := h
  exact ⟨p :: ps, r, .cons hl hcut⟩

section Join

variable {c : Char} {t : Token} (hc : Token.ofChar? c = some t) (ht : t.isSeparator = true)

include hc ht

theorem Longest.join {s rest b : List Char} {p : Piece} (h : Longest s p rest)
    (hend : c = ';' → ¬ EndsInComment s) : Longest (s ++ c :: b) p (rest ++ c :: b) := by
  have hs : s ≠ [] := by
    rintro rfl
    have := piece?_eq_some_iff.2 h
    cases this
  refine ⟨h.isLexeme, by rw [← List.append_assoc, h.append], ?_⟩
  intro q hq hprefix
  rcases prefix_or_comment hc ht hq hs hprefix with hprefix | ⟨hsemi, r, rfl, hr⟩
  · exact h.longest q hq hprefix
  · -- the first text is a comment to its end
    have hcomment : piece? ('#' :: r) = some (.comment ('#' :: r), []) := by
      simpa using piece?_comment hr []
    exact absurd ⟨[], '#' :: r, .cons (piece?_eq_some_iff.1 hcomment) (.nil [])⟩ (hend hsemi)

/-- What is joined to a text does not change its cut. -/
theorem Cut.join {s rest b : List Char} {ps : List Piece} (h : Cut s ps rest)
    (hend : c = ';' → ¬ EndsInComment s) : Cut (s ++ c :: b) ps (rest ++ c :: b) := by
  induction h with
  | nil s => exact .nil _
  | cons hl _ ih => exact .cons (hl.join hc ht hend) (ih fun hsemi h => hend hsemi (h.cons hl))

theorem piece?_join {s : List Char} (h : piece? s = none) (hs : s ≠ []) (b : List Char) :
    piece? (s ++ c :: b) = none := by
  rw [piece?_eq_none_iff] at h ⊢
  intro p hp hprefix
  rcases prefix_or_comment hc ht hp hs hprefix with hprefix | ⟨-, r, rfl, -⟩
  · exact h p hp hprefix
  · exact h (.comment ['#']) (Terminal.mem_comment.2 ⟨[], rfl, by simp⟩) (List.prefix_append ['#'] r)

/-- **Joined texts.** The tokens of joined texts are those of the first, the separator, and those of
the second. -/
theorem splits_join_iff {s b : List Char} {w : List Token} (hend : c = ';' → ¬ EndsInComment s) :
    Splits (s ++ c :: b) w ↔ ∃ u v, Splits s u ∧ Splits b v ∧ w = u ++ t :: v := by
  have hcut := (cut_pieces s).join hc ht (b := b) hend
  by_cases hs : (pieces s).2 = []
  · rw [hs] at hcut
    have hsep : Cut (c :: b) [.token t] b :=
      .cons (piece?_eq_some_iff.1 (piece?_ofChar? hc b)) (.nil b)
    have hpieces := (Cut.append_iff.2 ⟨_, hcut, hsep⟩).pieces_eq
    rw [splits_iff, hpieces]
    simp only [splits_iff, hs, List.filterMap_append, true_and]
    constructor
    · rintro ⟨hb, rfl⟩
      exact ⟨_, _, rfl, ⟨hb, rfl⟩, List.append_assoc ..⟩
    · rintro ⟨u, v, rfl, ⟨hb, rfl⟩, rfl⟩
      exact ⟨hb, List.append_assoc ..⟩
  · have hnone := piece?_join hc ht (piece?_pieces s) hs b
    have hpieces := hcut.pieces_eq
    rw [pieces_of_eq_none hnone] at hpieces
    simp only [splits_iff, hpieces, hs, List.append_eq_nil_iff, false_and, exists_false]

end Join

end Lexer

/-! ## Reading joined programs -/

namespace ProgramState

/-- The program state with statements before all others. -/
def behind (done : List Tree) (p : ProgramState) : ProgramState := ⟨p.done ++ done, p.current⟩

variable (done : List Tree)

theorem endStatement?_behind (p : ProgramState) :
    (p.behind done).endStatement? = p.endStatement?.map (behind done) := by
  obtain ⟨before, current⟩ := p
  cases current with
  | start => rfl
  | _ =>
    unfold endStatement? behind
    dsimp only
    rw [Option.map_map]
    rfl

theorem step_behind (p : ProgramState) (t : Token) :
    (p.behind done).step t = (p.step t).map (behind done) := by
  unfold step
  split
  · exact endStatement?_behind done p
  · rw [Option.map_map]
    rfl

theorem run_behind (p : ProgramState) (w : List Token) :
    (p.behind done).run w = (p.run w).map (behind done) := by
  induction w generalizing p with
  | nil => rfl
  | cons t w ih =>
    unfold run at *
    rw [List.foldlM_cons, List.foldlM_cons, step_behind]
    cases p.step t with
    | none => rfl
    | some q => exact ih q

theorem finish?_behind (p : ProgramState) :
    (p.behind done).finish? = p.finish?.map (done.reverse ++ ·) := by
  unfold finish?
  rw [endStatement?_behind, Option.map_map, Option.map_map]
  congr 1
  funext q
  exact List.reverse_append

theorem current_of_endStatement? {p q : ProgramState} (h : p.endStatement? = some q) :
    q.current = .start := by
  unfold endStatement? at h
  split at h
  · rename_i hs
    cases h
    exact hs
  · obtain ⟨t, -, rfl⟩ := Option.map_eq_some_iff.1 h
    rfl

theorem program_iff_run {w : List Token} {ts : List Tree} :
    Program w ts ↔ ∃ p, start.run w = some p ∧ p.finish? = some ts :=
  ⟨run_program, fun ⟨_, hp, hf⟩ => program_of_run hp hf⟩

/-- The state behind a separator is the start, with the statements before it set aside. -/
theorem run_separator {u : List Token} {t : Token} (ht : t.isSeparator = true) (v : List Token) :
    start.run (u ++ t :: v) = (start.run u).bind fun p =>
      p.finish?.bind fun us => (start.run v).map (behind us.reverse) := by
  unfold run
  rw [List.foldlM_append]
  cases List.foldlM step start u with
  | none => rfl
  | some p =>
    show List.foldlM step p (t :: v) = p.finish?.bind _
    rw [List.foldlM_cons]
    unfold step finish?
    rw [if_pos ht, Option.bind_map]
    cases hq : p.endStatement? with
    | none => rfl
    | some q =>
      obtain ⟨qdone, qcurrent⟩ := q
      obtain rfl : qcurrent = .start := current_of_endStatement? hq
      show List.foldlM step (behind qdone start) v = (start.run v).map (behind qdone.reverse.reverse)
      rw [List.reverse_reverse]
      exact run_behind qdone start v

end ProgramState

/-- A word with a separator is a program if and only if the words on both sides are. -/
theorem program_join_iff {u v : List Token} {t : Token} {ts : List Tree}
    (ht : t.isSeparator = true) :
    Program (u ++ t :: v) ts ↔ ∃ us vs, Program u us ∧ Program v vs ∧ ts = us ++ vs := by
  simp only [ProgramState.program_iff_run, ProgramState.run_separator ht,
    Option.bind_eq_some_iff, Option.map_eq_some_iff]
  constructor
  · rintro ⟨_, ⟨p, hp, us, hus, q, hq, rfl⟩, hf⟩
    rw [ProgramState.finish?_behind, Option.map_eq_some_iff] at hf
    obtain ⟨vs, hvs, rfl⟩ := hf
    exact ⟨us, vs, ⟨p, hp, hus⟩, ⟨q, hq, hvs⟩, by rw [List.reverse_reverse]⟩
  · rintro ⟨us, vs, ⟨p, hp, hus⟩, ⟨q, hq, hvs⟩, rfl⟩
    refine ⟨_, ⟨p, hp, us, hus, q, hq, rfl⟩, ?_⟩
    rw [ProgramState.finish?_behind, hvs, List.reverse_reverse]
    rfl

/-- A word of separators is the empty program. -/
theorem program_of_separators {w : List Token} (h : ∀ t ∈ w, t.isSeparator = true) :
    Program w [] := by
  induction w with
  | nil => exact .mk .nil .vacant
  | cons t w ih =>
    rw [List.forall_mem_cons] at h
    exact (program_join_iff (u := []) h.1).2 ⟨[], [], .mk .nil .vacant, ih h.2, rfl⟩

/-- A text with a separator in it is parsed as the texts on both sides are. -/
theorem parseProgram_separator_iff {c : Char} {t : Token} (hc : Token.ofChar? c = some t)
    (ht : t.isSeparator = true) {a b : String} (hend : c = ';' → ¬ Lexer.EndsInComment a.toList)
    {ts : List Tree} :
    parseProgram (a ++ String.singleton c ++ b) = .ok ts ↔
      ∃ us vs, parseProgram a = .ok us ∧ parseProgram b = .ok vs ∧ ts = us ++ vs := by
  have hchars : (a ++ String.singleton c ++ b).toList = a.toList ++ c :: b.toList := by
    simp
  simp only [parseProgram_eq_ok_iff, hchars, Lexer.splits_join_iff hc ht hend]
  constructor
  · rintro ⟨_, ⟨u, v, hu, hv, rfl⟩, hts⟩
    obtain ⟨us, vs, hus, hvs, rfl⟩ := (program_join_iff ht).1 hts
    exact ⟨us, vs, ⟨u, hu, hus⟩, ⟨v, hv, hvs⟩, rfl⟩
  · rintro ⟨us, vs, ⟨u, hu, hus⟩, ⟨v, hv, hvs⟩, rfl⟩
    exact ⟨_, ⟨u, v, hu, hv, rfl⟩, (program_join_iff ht).2 ⟨us, vs, hus, hvs, rfl⟩⟩

/-- **Joined programs.** Two texts with a line end between them are a program if and only if both are,
and it has the statements of the first and then those of the second; with a semicolon the same holds
if the first text does not end in a comment. The tokens of the joined text are those of the two and
the separator between them. A text without tokens, or with separators only, is the empty program, so
it adds nothing. -/
theorem parseProgram_join_iff (a b : String) :
    (∀ ts, parseProgram (a ++ "\n" ++ b) = .ok ts ↔
      ∃ us vs, parseProgram a = .ok us ∧ parseProgram b = .ok vs ∧ ts = us ++ vs) ∧
    (∀ w, Lexer.Splits (a ++ "\n" ++ b).toList w ↔
      ∃ u v, Lexer.Splits a.toList u ∧ Lexer.Splits b.toList v ∧ w = u ++ .lineEnd :: v) ∧
    (¬ Lexer.EndsInComment a.toList →
      (∀ ts, parseProgram (a ++ ";" ++ b) = .ok ts ↔
        ∃ us vs, parseProgram a = .ok us ∧ parseProgram b = .ok vs ∧ ts = us ++ vs) ∧
      ∀ w, Lexer.Splits (a ++ ";" ++ b).toList w ↔
        ∃ u v, Lexer.Splits a.toList u ∧ Lexer.Splits b.toList v ∧ w = u ++ .semicolon :: v) ∧
    ((∃ w, Lexer.Splits a.toList w ∧ ∀ t ∈ w, t.isSeparator = true) → parseProgram a = .ok []) := by
  have hline : (a ++ "\n" ++ b).toList = a.toList ++ '\n' :: b.toList := by
    simp
  have hsemi : (a ++ ";" ++ b).toList = a.toList ++ ';' :: b.toList := by
    simp
  rw [hline, hsemi]
  refine ⟨fun ts => ?_, fun w => ?_, fun hend => ⟨fun ts => ?_, fun w => ?_⟩, ?_⟩
  · exact parseProgram_separator_iff rfl rfl (c := '\n') (fun h => absurd h (by decide))
  · exact Lexer.splits_join_iff rfl rfl fun h => absurd h (by decide)
  · exact parseProgram_separator_iff rfl rfl (c := ';') fun _ => hend
  · exact Lexer.splits_join_iff rfl rfl fun _ => hend
  · rintro ⟨w, hw, hseps⟩
    exact parseProgram_eq_ok_iff.2 ⟨w, hw, program_of_separators hseps⟩

/-- A comment that a line end has ended does not reach over a semicolon behind it. -/
theorem parseProgram_join_iff_semicolon :
    let a := "# one\nx"
    let b := ";y = 2"
    ¬ Lexer.EndsInComment a.toList ∧ ∀ ts, parseProgram (a ++ ";" ++ b) = .ok ts ↔
      ∃ us vs, parseProgram a = .ok us ∧ parseProgram b = .ok vs ∧ ts = us ++ vs := by
  intro a b
  have hend : ¬ Lexer.EndsInComment a.toList := by
    rintro ⟨ps, r, hcut⟩
    have hlast : ((Lexer.pieces a.toList).1.getLast?.bind Piece.token?) = some (.name "x") := by
      decide +kernel
    rw [hcut.pieces_eq, Lexer.pieces_of_eq_none (s := []) rfl, List.append_nil,
      List.getLast?_concat] at hlast
    cases hlast
  exact ⟨hend, ((parseProgram_join_iff a b).2.2.1 hend).1⟩

example : parseProgram ("# one" ++ ";" ++ "x") = .ok [] := by
  with_unfolding_all rfl

end MatrixCalc
