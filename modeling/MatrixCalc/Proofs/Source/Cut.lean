import MatrixCalc.Proofs.Source.Lexeme

/-!
# Cutting a text up to a place

`Splits` cuts a text to its end. `Cut s ps rest` cuts only the pieces `ps` off the head of `s`, each
by the longest match, and leaves `rest`: so the pieces before any place of a text can be spoken of,
also in a text that cannot be cut to its end.

1. `piece?_eq_none_iff`: nothing is cut off a text exactly where no lexeme starts.
2. `Cut.pieces_eq` and `cut_pieces`: the pieces of a cut are the first ones that the lexer finds, and
   all that it finds are those of a cut.
3. `locate_append` and `exists_of_locate`: a token stands behind the text of the pieces before it.
-/

namespace MatrixCalc

namespace Lexer

/-- Nothing is cut off a text if and only if no lexeme starts there. -/
theorem piece?_eq_none_iff {s : List Char} :
    piece? s = none ↔ ∀ p : Piece, p.IsLexeme → ¬ p.chars <+: s := by
  constructor
  · rintro h p hp ⟨rest, rfl⟩
    obtain ⟨q, rest', hq, -⟩ := exists_piece? hp rest
    rw [h] at hq
    cases hq
  · intro h
    rw [Option.eq_none_iff_forall_ne_some]
    rintro ⟨p, rest⟩ hp
    exact h p (piece?_isLexeme hp) ⟨rest, (piece?_spec hp).1⟩

theorem pieces_of_eq_none {s : List Char} (h : piece? s = none) : pieces s = ([], s) := by
  rw [pieces]
  split
  · rfl
  · rename_i hs
    rw [hs] at h
    cases h

/-- The longest match cuts the pieces off the head of the text and leaves the rest. -/
inductive Cut : List Char → List Piece → List Char → Prop where
  | nil (s : List Char) : Cut s [] s
  | cons {s middle rest : List Char} {p : Piece} {ps : List Piece} :
    Longest s p middle → Cut middle ps rest → Cut s (p :: ps) rest

namespace Cut

variable {s rest : List Char} {ps qs : List Piece}

theorem append_iff : Cut s (ps ++ qs) rest ↔ ∃ middle, Cut s ps middle ∧ Cut middle qs rest := by
  constructor
  · intro h
    induction ps generalizing s with
    | nil => exact ⟨s, .nil s, h⟩
    | cons p ps ih =>
      cases h with
      | cons hl hrest =>
        obtain ⟨middle, hps, hqs⟩ := ih hrest
        exact ⟨middle, .cons hl hps, hqs⟩
  · rintro ⟨middle, hps, hqs⟩
    induction hps with
    | nil s => exact hqs
    | cons hl _ ih => exact .cons hl (ih hqs)

/-- The pieces and the rest are the text. -/
theorem chars_append (h : Cut s ps rest) : ps.flatMap Piece.chars ++ rest = s := by
  induction h with
  | nil s => rfl
  | cons hl _ ih => rw [List.flatMap_cons, List.append_assoc, ih, hl.append]

theorem isLexeme (h : Cut s ps rest) : ∀ p ∈ ps, p.IsLexeme := by
  induction h with
  | nil s =>
    intro p hp
    cases hp
  | cons hl _ ih =>
    rw [List.forall_mem_cons]
    exact ⟨hl.isLexeme, ih⟩

/-- The pieces of a cut are the first ones that the lexer finds. -/
theorem pieces_eq (h : Cut s ps rest) : pieces s = (ps ++ (pieces rest).1, (pieces rest).2) := by
  induction h with
  | nil s => rfl
  | cons hl _ ih =>
    rw [pieces_of_eq_some (piece?_eq_some_iff.2 hl), ih]
    rfl

end Cut

/-- The pieces that the lexer finds are those of a cut. -/
theorem cut_pieces (s : List Char) : Cut s (pieces s).1 (pieces s).2 := by
  fun_induction pieces s with
  | case1 s h => exact .nil s
  | case2 s piece rest h hlt ih => exact .cons (piece?_eq_some_iff.1 h) ih

/-! ## Places -/

theorem locate_append (p : Position) (ps qs : List Piece) :
    locate p (ps ++ qs) = locate p ps ++ locate (p.after (ps.flatMap Piece.chars)) qs := by
  induction ps generalizing p with
  | nil => rfl
  | cons piece ps ih =>
    rw [List.flatMap_cons, Position.after_append]
    cases piece with
    | token t => exact congrArg (⟨p, t⟩ :: ·) (ih _)
    | blank s => exact ih _
    | comment s => exact ih _

/-- A token among located tokens is the token of a piece, and its place is the one behind the text of
the pieces before it. -/
theorem exists_of_locate {p : Position} {ps : List Piece} {us vs : List (Located Token)}
    {t : Located Token} (h : locate p ps = us ++ t :: vs) :
    ∃ qs rs, ps = qs ++ .token t.item :: rs ∧ locate p qs = us ∧
      t.place = p.after (qs.flatMap Piece.chars) := by
  induction ps generalizing p us with
  | nil => cases us <;> cases h
  | cons piece ps ih =>
    cases piece with
    | blank s | comment s =>
      obtain ⟨qs, rs, rfl, hus, ht⟩ := ih (p := p.after s) h
      refine ⟨_ :: qs, rs, rfl, hus, ?_⟩
      rw [List.flatMap_cons, Position.after_append, ht]
      rfl
    | token u =>
      rw [locate] at h
      cases us with
      | nil =>
        obtain ⟨rfl, -⟩ := List.cons.inj h
        exact ⟨[], ps, rfl, rfl, rfl⟩
      | cons v us =>
        obtain ⟨rfl, hrest⟩ := List.cons.inj h
        obtain ⟨qs, rs, rfl, hus, ht⟩ := ih hrest
        refine ⟨.token u :: qs, rs, rfl, by rw [locate, hus], ?_⟩
        rw [List.flatMap_cons, Position.after_append, ht]

end Lexer

theorem lex_of_pieces {text : String} {ps : List Piece} {rest : List Char}
    (h : Lexer.pieces text.toList = (ps, rest)) :
    lex text = ⟨Lexer.locate .start ps,
      rest.head?.map fun c => ⟨Position.start.after (ps.flatMap Piece.chars), c⟩⟩ := by
  unfold lex
  rw [h, ← Lexer.placeAfter_eq]

end MatrixCalc
