import Mathlib.Data.List.DropRight
import MatrixCalc.Proofs.Source.Separators

/-!
# Trimmed lines

Lines are trimmed by more characters than are skipped between tokens. Trimming keeps the tokens of a
line all the same (`splits_stripChars`): a blank that is no line end belongs to nothing but blanks and
comments (`token?_of_blank_mem`), and of these only the last may end with one that is not skipped.

1. At the head of a line, blanks are dropped with the pieces that they are (`splits_dropWhile`).
2. Skipped characters come and go in front of any text (`splits_dropWhile_isSkipped`,
   `Splits.cons_skipped`).
3. At the end of a line blanks are dropped one by one, and the last piece is cut shorter
   (`Longest.of_concat`).
-/

namespace MatrixCalc

open Text

theorem Text.mem_of_mem_stripChars {s : List Char} {c : Char} (h : c ∈ stripChars s) : c ∈ s :=
  (List.dropWhile_sublist _).subset ((List.rdropWhile_prefix isBlank _).subset h)

namespace Lexer

/-- A lexeme that holds a blank other than the line end is skipped. -/
theorem token?_of_blank_mem {p : Piece} (hp : p.IsLexeme) {c : Char} (hc : c ∈ p.chars)
    (hblank : isBlank c = true) (hline : c ≠ '\n') : p.token? = none := by
  cases p with
  | blank s => rfl
  | comment s => rfl
  | token t =>
    exfalso
    cases ht : t.isSeparator with
    | false =>
      rw [(Token.not_blank_of_isLexeme hp ht hc).1] at hblank
      cases hblank
    | true =>
      cases t with
      | semicolon =>
        rw [List.mem_singleton.1 hc] at hblank
        exact absurd hblank (by decide)
      | lineEnd => exact hline (List.mem_singleton.1 hc)
      | _ => cases ht

theorem splits_of_skipped {p : Piece} (hp : p.IsLexeme) (htoken : p.token? = none) :
    Splits p.chars [] :=
  .skip htoken ⟨hp, List.append_nil _, fun _ _ h => h.length_le⟩ .nil

theorem splits_comment {s : List Char} (hhead : s.head? = some '#') (hs : '\n' ∉ s) :
    Splits s [] := by
  obtain ⟨r, rfl⟩ := List.head?_eq_some_iff.1 hhead
  have hlexeme : (Piece.comment ('#' :: r)).IsLexeme := by
    refine Terminal.mem_comment.2 ⟨r, rfl, fun c hc => bne_iff_ne.2 ?_⟩
    rintro rfl
    exact hs (List.mem_cons_of_mem _ hc)
  exact splits_of_skipped hlexeme rfl

/-! ## The head of a line -/

theorem dropWhile_of_longest {s rest : List Char} {p : Piece} {q : Char → Bool}
    (h : Longest s p rest) (hhead : ∀ c r, p.chars = c :: r → q c = false) :
    s.dropWhile q = s := by
  have hne := (piece?_spec (piece?_eq_some_iff.2 h)).2
  obtain ⟨c, r, hc⟩ := List.exists_cons_of_ne_nil hne
  rw [← h.append, hc, List.cons_append, List.dropWhile_cons_of_neg]
  rw [hhead c r hc]
  exact Bool.false_ne_true

theorem isBlank_of_isSkipped {c : Char} (h : isSkipped c = true) : isBlank c = true := by
  rcases isSkipped_iff.1 h with rfl | rfl | rfl | rfl <;> decide

/-- Blanks at the head of a line are no part of a token. -/
theorem splits_dropWhile {s : List Char} {w : List Token} (h : Splits s w) (hs : '\n' ∉ s) :
    Splits (s.dropWhile isBlank) w := by
  induction h with
  | nil => exact .nil
  | @token s rest t w hl hrest _ =>
    rw [dropWhile_of_longest hl]
    · exact .token hl hrest
    · intro c r hc
      have hmem : c ∈ (Piece.token t).chars := by
        rw [hc]
        exact List.mem_cons_self
      have hline : c ≠ '\n' := by
        rintro rfl
        rw [← hl.append] at hs
        exact hs (List.mem_append_left _ hmem)
      rw [Bool.eq_false_iff]
      intro hblank
      cases token?_of_blank_mem hl.isLexeme hmem hblank hline
  | @skip s rest p w hp hl hrest ih =>
    cases p with
    | token t => cases hp
    | blank b =>
      have hskipped := (Terminal.mem_blank.1 hl.isLexeme).2
      have happ : b ++ rest = s := hl.append
      rw [← happ] at hs ⊢
      rw [List.dropWhile_append_of_pos fun c hc => isBlank_of_isSkipped (hskipped c hc)]
      exact ih fun h => hs (List.mem_append_right _ h)
    | comment b =>
      obtain ⟨r, rfl, -⟩ := Terminal.mem_comment.1 hl.isLexeme
      rw [dropWhile_of_longest hl]
      · exact .skip hp hl hrest
      · intro c r' hc
        obtain ⟨rfl, -⟩ := List.cons.inj hc
        decide

/-! ## Skipped characters -/

theorem token?_of_skipped_mem {p : Piece} (hp : p.IsLexeme) {c : Char} (hc : c ∈ p.chars)
    (hskip : isSkipped c = true) : p.token? = none := by
  refine token?_of_blank_mem hp hc (isBlank_of_isSkipped hskip) ?_
  rintro rfl
  exact absurd hskip (by decide)

theorem splits_dropWhile_isSkipped {s : List Char} {w : List Token} (h : Splits s w) :
    Splits (s.dropWhile isSkipped) w := by
  induction h with
  | nil => exact .nil
  | @token s rest t w hl hrest _ =>
    rw [dropWhile_of_longest hl]
    · exact .token hl hrest
    · intro c r hc
      rw [Bool.eq_false_iff]
      intro hskip
      have hmem : c ∈ (Piece.token t).chars := by
        rw [hc]
        exact List.mem_cons_self
      cases token?_of_skipped_mem hl.isLexeme hmem hskip
  | @skip s rest p w hp hl hrest ih =>
    cases p with
    | token t => cases hp
    | blank b =>
      have happ : b ++ rest = s := hl.append
      rw [← happ, List.dropWhile_append_of_pos (Terminal.mem_blank.1 hl.isLexeme).2]
      exact ih
    | comment b =>
      obtain ⟨r, rfl, -⟩ := Terminal.mem_comment.1 hl.isLexeme
      rw [dropWhile_of_longest hl]
      · exact .skip hp hl hrest
      · intro c r' hc
        obtain ⟨rfl, -⟩ := List.cons.inj hc
        rfl

/-- A skipped character in front of a text leaves its tokens. -/
theorem Splits.cons_skipped {s : List Char} {w : List Token} (h : Splits s w) {c : Char}
    (hc : isSkipped c = true) : Splits (c :: s) w := by
  have hpiece := piece?_blank (c := c) (r := []) (List.forall_mem_singleton.2 hc) s
  exact .skip rfl (piece?_eq_some_iff.1 hpiece) (splits_dropWhile_isSkipped h)

theorem Splits.append_skipped {s : List Char} {w : List Token} (h : Splits s w) {b : List Char}
    (hb : ∀ c ∈ b, isSkipped c = true) : Splits (b ++ s) w := by
  induction b with
  | nil => exact h
  | cons c b ih =>
    rw [List.forall_mem_cons] at hb
    exact (ih hb.2).cons_skipped hb.1

/-! ## The end of a line -/

/-- A skipped piece without its last character is skipped too. -/
theorem splits_of_skipped_concat {p : Piece} (hp : p.IsLexeme) (htoken : p.token? = none)
    {s : List Char} {c : Char} (h : p.chars = s ++ [c]) : Splits s [] := by
  cases s with
  | nil => exact .nil
  | cons d s =>
    cases p with
    | token t => cases htoken
    | blank b =>
      obtain rfl : b = d :: s ++ [c] := h
      have hskipped := (Terminal.mem_blank.1 hp).2
      have hlexeme : (Piece.blank (d :: s)).IsLexeme := Terminal.mem_blank.2
        ⟨List.cons_ne_nil d s, fun e he => hskipped e (List.mem_append_left _ he)⟩
      exact splits_of_skipped hlexeme rfl
    | comment b =>
      obtain rfl : b = d :: s ++ [c] := h
      obtain ⟨r, hr, hr'⟩ := Terminal.mem_comment.1 hp
      obtain ⟨rfl, rfl⟩ := List.cons.inj hr
      have hlexeme : (Piece.comment ('#' :: s)).IsLexeme := Terminal.mem_comment.2
        ⟨s, rfl, fun e he => hr' e (List.mem_append_left _ he)⟩
      exact splits_of_skipped hlexeme rfl

/-- A piece that ends before a joint is the longest match of the text before the joint alone. -/
theorem Longest.of_append {p : Piece} {s more b : List Char}
    (h : Longest (s ++ b) p (more ++ b)) : Longest s p more := by
  refine ⟨h.isLexeme, List.append_cancel_right (by rw [List.append_assoc, h.append]), ?_⟩
  exact fun q hq hle => h.longest q hq (hle.trans (List.prefix_append ..))

section Concat

variable {s : List Char} {c : Char} (hblank : isBlank c = true) (hline : c ≠ '\n')

include hblank hline

/-- The last piece of a line that ends with a blank is skipped, and may be cut shorter; a piece before
it does not see the blank. -/
theorem Longest.of_concat {p : Piece} {rest : List Char} (h : Longest (s ++ [c]) p rest) :
    (rest = [] ∧ p.token? = none ∧ Splits s []) ∨
      ∃ rest', rest = rest' ++ [c] ∧ Longest s p rest' := by
  have happ := h.append
  rcases List.eq_nil_or_concat' rest with rfl | ⟨rest', d, rfl⟩
  · left
    rw [List.append_nil] at happ
    have hmem : c ∈ p.chars := by
      rw [happ]
      exact List.mem_append_right _ (List.mem_singleton_self c)
    have htoken := token?_of_blank_mem h.isLexeme hmem hblank hline
    exact ⟨rfl, htoken, splits_of_skipped_concat h.isLexeme htoken happ⟩
  · right
    rw [← List.append_assoc] at happ
    obtain ⟨rfl, hd⟩ := List.append_inj' happ rfl
    obtain rfl : d = c := List.singleton_inj.1 hd
    exact ⟨rest', rfl, h.of_append⟩

/-- A blank at the end of a line is no part of a token. -/
theorem Splits.of_concat {w : List Token} (h : Splits (s ++ [c]) w) : Splits s w := by
  generalize htext : s ++ [c] = text at h
  induction h generalizing s with
  | nil => simp at htext
  | token hl hrest ih =>
    subst htext
    rcases hl.of_concat hblank hline with ⟨-, htoken, -⟩ | ⟨rest', rfl, hl'⟩
    · cases htoken
    · exact .token hl' (ih rfl)
  | skip hp hl hrest ih =>
    subst htext
    rcases hl.of_concat hblank hline with ⟨rfl, -, hs⟩ | ⟨rest', rfl, hl'⟩
    · rwa [splits_unique hrest .nil]
    · exact .skip hp hl' (ih rfl)

end Concat

theorem splits_rdropWhile {s : List Char} {w : List Token} (h : Splits s w) (hs : '\n' ∉ s) :
    Splits (s.rdropWhile isBlank) w := by
  induction s using List.reverseRecOn with
  | nil => exact h
  | append_singleton s c ih =>
    by_cases hblank : isBlank c = true
    · rw [List.rdropWhile_concat_pos _ _ _ hblank]
      have hline : c ≠ '\n' := by
        rintro rfl
        exact hs (List.mem_append_right _ (List.mem_singleton_self _))
      exact ih (h.of_concat hblank hline) fun h => hs (List.mem_append_left _ h)
    · rw [List.rdropWhile_concat_neg _ _ _ hblank]
      exact h

/-- Trimming keeps the tokens of a line. -/
theorem splits_stripChars {s : List Char} {w : List Token} (h : Splits s w) (hs : '\n' ∉ s) :
    Splits (stripChars s) w := by
  have hmem : '\n' ∉ s.dropWhile isBlank := fun h => hs ((List.dropWhile_sublist _).subset h)
  exact splits_rdropWhile (splits_dropWhile h hs) hmem

end Lexer

end MatrixCalc
