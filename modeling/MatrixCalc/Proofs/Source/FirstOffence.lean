import MatrixCalc.Proofs.Source.Cut
import MatrixCalc.Proofs.Source.Exact

/-!
# Parse errors name the first offence

A text that is refused is read as far as it can be the beginning of a sentence, and the error names
what comes next (`parse_error_iff_firstOffence`).

1. `Viable L w`: the word is a prefix of a sentence. Every state of the machine can be completed, by an
   operand if one is due and by closing what is open (`State.exists_run_finish`).
2. Hence the words that a machine takes are the viable ones (`Recognizes.viable_iff`), for statements
   (`recognizes_statements`) and for programs (`recognizes_programs`).
3. `FirstOffence L s e` says what an error claims of a text, without a machine: the pieces before the
   offence, and why nothing can go on behind them. One lemma for each kind of offence shows that the
   error is reported exactly then.
-/

namespace MatrixCalc

open Grammar

namespace Grammar

/-- The sentences that are statements. -/
def statements : Language Token := {w | Lexical w ∧ ∃ t, Statement w t}

/-- The sentences that are programs. -/
def programs : Language Token := {w | Lexical w ∧ ∃ ts, Program w ts}

/-- The word is a prefix of a sentence. -/
def Viable (L : Language Token) (w : List Token) : Prop := ∃ v ∈ L, w <+: v

end Grammar

/-! ## States can be completed -/

/-- The token that closes an opening. -/
def Opening.closer : Opening → Token
  | .group | .determinant => .closeParen
  | .bracket _ => .closeBracket
  | .brace _ => .closeBrace

/-- The tokens that close all openings, the innermost first. -/
def Context.closers (c : Context) : List Token := c.frames.map fun f => f.opening.closer

namespace State

theorem stepComplete_closer (target : Option String) (frame : Frame) (frames : List Frame)
    (e : Tree) : ∃ e', (State.complete ⟨target, frame :: frames⟩ e).step frame.opening.closer =
      some (.complete ⟨target, frames⟩ e') := by
  obtain ⟨level, opening⟩ := frame
  cases opening <;> exact ⟨_, rfl⟩

theorem run_closers (target : Option String) (frames : List Frame) (e : Tree) :
    ∃ e', (State.complete ⟨target, frames⟩ e).run (Context.closers ⟨target, frames⟩) =
      some (.complete ⟨target, []⟩ e') := by
  induction frames generalizing e with
  | nil => exact ⟨e, rfl⟩
  | cons frame frames ih =>
    obtain ⟨e₁, h₁⟩ := stepComplete_closer target frame frames e
    obtain ⟨e₂, h₂⟩ := ih e₁
    exact ⟨e₂, (run_cons_of_step h₁ _).trans h₂⟩

/-- The tokens that complete what has been read of a statement. -/
def completion : State → List Token
  | .start => [.number "0"]
  | .named _ => []
  | .operand c _ => .number "0" :: c.closers
  | .keyword c _ => .openParen :: .number "0" :: .closeParen :: c.closers
  | .complete c _ => c.closers

/-- Every state can be completed to a statement. -/
theorem exists_run_finish (s : State) :
    ∃ s' t, s.run s.completion = some s' ∧ s'.finish? = some t := by
  cases s with
  | start => exact ⟨_, _, rfl, rfl⟩
  | named x => exact ⟨_, _, rfl, rfl⟩
  | operand c level =>
    obtain ⟨e, he⟩ := run_closers c.target c.frames (level.fill (.number "0"))
    exact ⟨_, _, (run_cons_of_step rfl _).trans he, rfl⟩
  | keyword c level =>
    obtain ⟨e, he⟩ := run_closers c.target c.frames
      (level.fill (.determinant (Level.empty.fill (.number "0"))))
    refine ⟨.complete ⟨c.target, []⟩ e, _, ?_, rfl⟩
    rw [completion, run_cons_of_step rfl, run_cons_of_step rfl, run_cons_of_step rfl]
    exact he
  | complete c e =>
    obtain ⟨e', he⟩ := run_closers c.target c.frames e
    exact ⟨_, _, he, rfl⟩

theorem lexical_closers (c : Context) : Lexical c.closers := by
  intro t ht
  obtain ⟨frame, -, rfl⟩ := List.mem_map.1 ht
  cases frame.opening <;> trivial

theorem lexical_completion (s : State) : Lexical s.completion := by
  have hnumber : Lexer.takeNumber? ['0'] = some (['0'], []) := rfl
  have hzero : (Piece.token (.number "0")).IsLexeme := Lexer.takeNumber?_mem hnumber
  cases s with
  | start => exact lexical_cons.2 ⟨hzero, fun _ h => nomatch h⟩
  | named x => exact fun _ h => nomatch h
  | operand c level => exact lexical_cons.2 ⟨hzero, lexical_closers c⟩
  | keyword c level =>
    rw [completion, lexical_cons, lexical_cons, lexical_cons]
    exact ⟨trivial, hzero, trivial, lexical_closers c⟩
  | complete c e => exact lexical_closers c

end State

/-! ## Machines and their languages -/

namespace Parser

variable {σ α : Type} {step : σ → Token → Option σ} {start : σ} {finish? : σ → Option α}
  {L : Language Token}

/-- The machine accepts the words of the language, and whatever it takes is viable. -/
structure Recognizes (step : σ → Token → Option σ) (start : σ) (finish? : σ → Option α)
    (L : Language Token) : Prop where
  mem_iff : ∀ {w : List Token},
    w ∈ L ↔ Lexical w ∧ ∃ s, w.foldlM step start = some s ∧ (finish? s).isSome
  viable : ∀ {w : List Token} {s : σ}, Lexical w → w.foldlM step start = some s → Viable L w

/-- The words that a machine takes are the viable ones. -/
theorem Recognizes.viable_iff (h : Recognizes step start finish? L) {w : List Token}
    (hw : Lexical w) : Viable L w ↔ ∃ s, w.foldlM step start = some s := by
  constructor
  · rintro ⟨_, hv, v, rfl⟩
    obtain ⟨-, s, hs, -⟩ := h.mem_iff.1 hv
    rw [List.foldlM_append] at hs
    obtain ⟨s₁, hs₁, -⟩ := Option.bind_eq_some_iff.1 hs
    exact ⟨s₁, hs₁⟩
  · rintro ⟨s, hs⟩
    exact h.viable hw hs

theorem recognizes_statements : Recognizes State.step .start State.finish? statements where
  mem_iff := by
    intro w
    refine and_congr_right fun _ => ⟨?_, ?_⟩
    · rintro ⟨t, ht⟩
      obtain ⟨s, hs, hf⟩ := State.run_statement ht
      exact ⟨s, hs, Option.isSome_of_eq_some hf⟩
    · rintro ⟨s, hs, hf⟩
      obtain ⟨t, ht⟩ := Option.isSome_iff_exists.1 hf
      exact ⟨t, State.statement_of_run hs ht⟩
  viable := by
    intro w s hw hs
    obtain ⟨s', t, hrun, hf⟩ := s.exists_run_finish
    refine ⟨w ++ s.completion, ⟨lexical_append.2 ⟨hw, s.lexical_completion⟩, t, ?_⟩,
      List.prefix_append ..⟩
    exact State.statement_of_run ((State.run_append_of_run hs _).trans hrun) hf

theorem recognizes_programs :
    Recognizes ProgramState.step .start ProgramState.finish? programs where
  mem_iff := by
    intro w
    refine and_congr_right fun _ => ⟨?_, ?_⟩
    · rintro ⟨ts, ht⟩
      obtain ⟨p, hp, hf⟩ := ProgramState.run_program ht
      exact ⟨p, hp, Option.isSome_of_eq_some hf⟩
    · rintro ⟨p, hp, hf⟩
      obtain ⟨ts, ht⟩ := Option.isSome_iff_exists.1 hf
      exact ⟨ts, ProgramState.program_of_run hp ht⟩
  viable := by
    rintro w ⟨done, s⟩ hw hp
    obtain ⟨s', t, hrun, hf⟩ := s.exists_run_finish
    refine ⟨w ++ s.completion, ⟨lexical_append.2 ⟨hw, s.lexical_completion⟩, done.reverse ++ [t], ?_⟩,
      List.prefix_append ..⟩
    refine ProgramState.program_of_run (p := ⟨done, s'⟩) ?_ ?_
    · rw [List.foldlM_append, hp]
      exact ProgramState.run_of_state_run hrun done
    · unfold ProgramState.finish?
      rw [ProgramState.endStatement?_of_finish? hf]
      exact congrArg some List.reverse_cons

/-! ## How reading fails -/

theorem feed_cons_of_step {s s' : σ} {t : Located Token} (h : step s t.item = some s')
    (ts : List (Located Token)) : feed step s (t :: ts) = feed step s' ts := by
  rw [feed, h]

theorem feed_append {s s' : σ} {us : List (Located Token)} (h : feed step s us = .ok s')
    (ts : List (Located Token)) : feed step s (us ++ ts) = feed step s' ts := by
  induction us generalizing s with
  | nil =>
    cases h
    rfl
  | cons u us ih =>
    cases hs : step s u.item with
    | none =>
      rw [feed, hs] at h
      cases h
    | some s₁ =>
      rw [feed_cons_of_step hs] at h
      rw [List.cons_append, feed_cons_of_step hs, ih h]

/-- Feeding stops at a token if the machine takes those before it and not that one. -/
theorem feed_eq_error_iff {s : σ} {ts : List (Located Token)} {t : Located Token} :
    feed step s ts = .error t ↔ ∃ us vs s', ts = us ++ t :: vs ∧ feed step s us = .ok s' ∧
      step s' t.item = none := by
  constructor
  · intro h
    induction ts generalizing s with
    | nil => cases h
    | cons u ts ih =>
      cases hs : step s u.item with
      | none =>
        rw [feed, hs] at h
        cases h
        exact ⟨[], ts, s, rfl, rfl, hs⟩
      | some s₁ =>
        rw [feed_cons_of_step hs] at h
        obtain ⟨us, vs, s', rfl, hus, ht⟩ := ih h
        exact ⟨u :: us, vs, s', rfl, by rw [feed_cons_of_step hs, hus], ht⟩
  · rintro ⟨us, vs, s', rfl, hus, ht⟩
    rw [feed_append hus, feed, ht]

section Read

variable {text : Lexed} {place : Position}

theorem read_eq_error_token_iff {t : Token} :
    read step start finish? text = .error ⟨place, .token t⟩ ↔
      feed step start text.tokens = .error ⟨place, t⟩ := by
  unfold read
  split
  · rename_i u hu
    obtain ⟨q, v⟩ := u
    simp [hu]
  · rename_i s hs
    rw [hs]
    split
    · simp
    · split
      · simp
      · simp

theorem read_eq_error_character_iff {c : Char} :
    read step start finish? text = .error ⟨place, .character c⟩ ↔
      (∃ s, feed step start text.tokens = .ok s) ∧ text.stuck = some ⟨place, c⟩ := by
  unfold read
  split
  · rename_i u hu
    simp [hu]
  · rename_i s hs
    rw [hs]
    split
    · rename_i d hd
      obtain ⟨q, d⟩ := d
      simp [hd]
    · rename_i hd
      split <;> simp [hd]

theorem read_eq_error_ending_iff :
    read step start finish? text = .error ⟨place, .ending⟩ ↔
      (∃ s, feed step start text.tokens = .ok s ∧ finish? s = none) ∧ text.stuck = none ∧
        place = endPlace text.tokens := by
  unfold read
  split
  · rename_i u hu
    simp [hu]
  · rename_i s hs
    rw [hs]
    split
    · rename_i d hd
      simp [hd]
    · rename_i hd
      split
      · rename_i a ha
        simp [ha]
      · rename_i ha
        simp [ha, hd, eq_comm]

end Read

end Parser

/-! ## The first offence -/

/-- The place is that of the last token among the pieces at the head of a text, or the first place of
all if there is no token. -/
def IsLastPlace (ps : List Piece) (place : Position) : Prop :=
  (ps.filterMap Piece.token? = [] ∧ place = ⟨1, 1⟩) ∨
    ∃ before t behind, ps = before ++ .token t :: behind ∧ behind.filterMap Piece.token? = [] ∧
      place = Position.start.after (before.flatMap Piece.chars)

/-- What an error says of a text. The tokens before the offence are a prefix of a sentence; with the
token that is named they are none, or no lexeme starts at the character that is named, or the text
ends there and is no sentence. -/
def FirstOffence (L : Language Token) (s : List Char) (e : ParseError) : Prop :=
  match e.offence with
  | .token t => ∃ ps rest, Lexer.Cut s (ps ++ [.token t]) rest ∧
      e.place = Position.start.after (ps.flatMap Piece.chars) ∧
      Viable L (ps.filterMap Piece.token?) ∧ ¬ Viable L (ps.filterMap Piece.token? ++ [t])
  | .character c => ∃ ps rest, Lexer.Cut s ps (c :: rest) ∧
      e.place = Position.start.after (ps.flatMap Piece.chars) ∧
      Viable L (ps.filterMap Piece.token?) ∧ ∀ p : Piece, p.IsLexeme → ¬ p.chars <+: c :: rest
  | .ending => ∃ ps, Lexer.Cut s ps [] ∧ IsLastPlace ps e.place ∧
      Viable L (ps.filterMap Piece.token?) ∧ ps.filterMap Piece.token? ∉ L

theorem isLastPlace_iff {ps : List Piece} {place : Position} :
    IsLastPlace ps place ↔ place = Parser.endPlace (Lexer.locate .start ps) := by
  have hnone : ∀ {p : Position} {qs : List Piece}, qs.filterMap Piece.token? = [] →
      Lexer.locate p qs = [] := by
    intro p qs hqs
    rw [← List.map_eq_nil_iff (f := fun t => t.item), Lexer.map_item_locate, hqs]
  unfold Parser.endPlace
  constructor
  · rintro (⟨hps, rfl⟩ | ⟨before, t, behind, rfl, hbehind, rfl⟩)
    · rw [hnone hps]
      rfl
    · rw [Lexer.locate_append, Lexer.locate, hnone hbehind, List.getLast?_concat]
  · rintro rfl
    rcases List.eq_nil_or_concat' (Lexer.locate .start ps) with h | ⟨us, t, h⟩
    · refine .inl ⟨?_, by rw [h]; rfl⟩
      rw [← Lexer.map_item_locate .start, h, List.map_nil]
    · obtain ⟨before, behind, rfl, hbefore, hplace⟩ := Lexer.exists_of_locate h
      refine .inr ⟨before, t.item, behind, rfl, ?_, ?_⟩
      · rw [Lexer.locate_append, Lexer.locate, hbefore, List.append_cancel_left_eq,
          List.cons.injEq] at h
        rw [← Lexer.map_item_locate, h.2, List.map_nil]
      · rw [h, List.getLast?_concat, ← hplace]

namespace Parser

variable {σ α : Type} {step : σ → Token → Option σ} {start : σ} {finish? : σ → Option α}
  {L : Language Token} (h : Recognizes step start finish? L)

theorem lexical_tokens {ps : List Piece} (hps : ∀ p ∈ ps, p.IsLexeme) :
    Lexical (ps.filterMap Piece.token?) := by
  intro t ht
  obtain ⟨p, hp, hpt⟩ := List.mem_filterMap.1 ht
  cases p with
  | token u =>
    cases hpt
    exact hps _ hp
  | blank s => cases hpt
  | comment s => cases hpt

include h

theorem Recognizes.viable_iff_feed {s rest : List Char} {ps : List Piece}
    (hcut : Lexer.Cut s ps rest) (p : Position) :
    Viable L (ps.filterMap Piece.token?) ↔ ∃ q, feed step start (Lexer.locate p ps) = .ok q := by
  rw [h.viable_iff (lexical_tokens hcut.isLexeme)]
  simp only [feed_eq_ok_iff, Lexer.map_item_locate]

/-- A token is named exactly if it is the first that no sentence has there. -/
theorem Recognizes.read_token_iff (text : String) (place : Position) (t : Token) :
    read step start finish? (lex text) = .error ⟨place, .token t⟩ ↔
      FirstOffence L text.toList ⟨place, .token t⟩ := by
  rw [read_eq_error_token_iff, feed_eq_error_iff]
  -- behind the pieces `ps` the machine takes the token if and only if it may stand there
  have hstep : ∀ {ps rest q}, Lexer.Cut text.toList (ps ++ [.token t]) rest →
      feed step start (Lexer.locate .start ps) = .ok q →
      (step q t = none ↔ ¬ Viable L (ps.filterMap Piece.token? ++ [t])) := by
    intro ps rest q hcut hq
    have hviable := h.viable_iff_feed hcut .start
    rw [List.filterMap_append, Lexer.locate_append, feed_append hq] at hviable
    rw [show ps.filterMap Piece.token? ++ [t] = ps.filterMap Piece.token? ++
      [Piece.token t].filterMap Piece.token? from rfl, hviable, Lexer.locate, feed]
    cases step q t <;> simp [Lexer.locate, feed]
  constructor
  · rintro ⟨us, vs, q, htokens, hus, hnone⟩
    obtain ⟨ps, qs, hpieces, rfl, hplace⟩ := Lexer.exists_of_locate htokens
    have hcut := Lexer.cut_pieces text.toList
    rw [hpieces, List.append_cons] at hcut
    obtain ⟨rest, hcut, -⟩ := Lexer.Cut.append_iff.1 hcut
    obtain ⟨middle, hps, -⟩ := Lexer.Cut.append_iff.1 hcut
    exact ⟨ps, rest, hcut, hplace, (h.viable_iff_feed hps .start).2 ⟨q, hus⟩, (hstep hcut hus).1 hnone⟩
  · rintro ⟨ps, rest, hcut, hplace, hviable, hnot⟩
    obtain ⟨middle, hps, -⟩ := Lexer.Cut.append_iff.1 hcut
    obtain ⟨q, hq⟩ := (h.viable_iff_feed hps .start).1 hviable
    refine ⟨Lexer.locate .start ps, Lexer.locate (place.after (Piece.token t).chars)
      (Lexer.pieces rest).1, q, ?_, hq, (hstep hcut hq).2 hnot⟩
    rw [lex_of_pieces hcut.pieces_eq]
    dsimp only at hplace ⊢
    rw [List.append_assoc, Lexer.locate_append, ← hplace]
    rfl

/-- A character is named exactly if nothing starts there and a sentence may go on behind the tokens
before it. -/
theorem Recognizes.read_character_iff (text : String) (place : Position) (c : Char) :
    read step start finish? (lex text) = .error ⟨place, .character c⟩ ↔
      FirstOffence L text.toList ⟨place, .character c⟩ := by
  rw [read_eq_error_character_iff]
  constructor
  · rintro ⟨hfeed, hstuck⟩
    have hcut := Lexer.cut_pieces text.toList
    have hnone := Lexer.piece?_pieces text.toList
    obtain ⟨d, hd, he⟩ := Option.map_eq_some_iff.1 hstuck
    obtain ⟨rfl, rfl⟩ := Located.mk.inj he
    obtain ⟨rest, hrest⟩ := List.head?_eq_some_iff.1 hd
    rw [hrest] at hcut hnone
    exact ⟨_, rest, hcut, Lexer.placeAfter_eq .start _, (h.viable_iff_feed hcut .start).2 hfeed,
      Lexer.piece?_eq_none_iff.1 hnone⟩
  · rintro ⟨ps, rest, hcut, hplace, hviable, hnot⟩
    obtain rfl : place = Position.start.after (ps.flatMap Piece.chars) := hplace
    have hpieces := hcut.pieces_eq
    rw [Lexer.pieces_of_eq_none (Lexer.piece?_eq_none_iff.2 hnot), List.append_nil] at hpieces
    rw [lex_of_pieces hpieces]
    exact ⟨(h.viable_iff_feed hcut .start).1 hviable, rfl⟩

/-- An early end is named exactly if the whole text is cut, a sentence may go on behind it, and it is
none itself. -/
theorem Recognizes.read_ending_iff (text : String) (place : Position) :
    read step start finish? (lex text) = .error ⟨place, .ending⟩ ↔
      FirstOffence L text.toList ⟨place, .ending⟩ := by
  rw [read_eq_error_ending_iff]
  -- the state behind all tokens says whether they are a sentence
  have hend : ∀ {ps rest q}, Lexer.Cut text.toList ps rest →
      feed step start (Lexer.locate .start ps) = .ok q →
      (finish? q = none ↔ ps.filterMap Piece.token? ∉ L) := by
    intro ps rest q hcut hq
    rw [feed_eq_ok_iff, Lexer.map_item_locate] at hq
    rw [h.mem_iff, hq]
    simp [lexical_tokens hcut.isLexeme]
  constructor
  · rintro ⟨⟨q, hq, hnone⟩, hstuck, hplace⟩
    have hcut := Lexer.cut_pieces text.toList
    have hrest : (Lexer.pieces text.toList).2 = [] :=
      List.head?_eq_none_iff.1 (Option.map_eq_none_iff.1 hstuck)
    rw [hrest] at hcut
    exact ⟨_, hcut, isLastPlace_iff.2 hplace, (h.viable_iff_feed hcut .start).2 ⟨q, hq⟩,
      (hend hcut hq).1 hnone⟩
  · rintro ⟨ps, hcut, hplace, hviable, hnot⟩
    have hpieces := hcut.pieces_eq
    rw [Lexer.pieces_of_eq_none (s := []) rfl, List.append_nil] at hpieces
    obtain ⟨q, hq⟩ := (h.viable_iff_feed hcut .start).1 hviable
    rw [lex_of_pieces hpieces]
    exact ⟨⟨q, hq, (hend hcut hq).2 hnot⟩, rfl, isLastPlace_iff.1 hplace⟩

/-- A text is refused exactly for its first offence. -/
theorem Recognizes.read_eq_error_iff (text : String) (e : ParseError) :
    read step start finish? (lex text) = .error e ↔ FirstOffence L text.toList e := by
  obtain ⟨place, offence⟩ := e
  cases offence with
  | token t => exact h.read_token_iff text place t
  | character c => exact h.read_character_iff text place c
  | ending => exact h.read_ending_iff text place

/-- A text is accepted, or it has one first offence. -/
theorem Recognizes.ok_or_existsUnique (text : String) :
    (∃ a, read step start finish? (lex text) = .ok a) ∨ ∃! e, FirstOffence L text.toList e := by
  cases hread : read step start finish? (lex text) with
  | ok a => exact .inl ⟨a, rfl⟩
  | error e =>
    refine .inr ⟨e, (h.read_eq_error_iff text e).1 hread, ?_⟩
    intro e' he'
    have := (h.read_eq_error_iff text e').2 he'
    rw [hread, Except.error.injEq] at this
    exact this.symm

end Parser

/-- **The first offence.** A text is refused with an error if and only if the error says of it, as a
statement or as a program, what is its first offence; and it has one or is accepted. The error is
worded by the kind of the offence. -/
theorem parse_error_iff_firstOffence (text : String) :
    (∀ e, parseStatement text = .error e ↔ FirstOffence statements text.toList e) ∧
    (∀ e, parseProgram text = .error e ↔ FirstOffence programs text.toList e) ∧
    ((∃ t, parseStatement text = .ok t) ∨ ∃! e, FirstOffence statements text.toList e) ∧
    ((∃ ts, parseProgram text = .ok ts) ∨ ∃! e, FirstOffence programs text.toList e) ∧
    ∀ e : ParseError, e.report = ⟨match e.offence with
      | .token t => "unexpected token " ++ Text.quoted t.text
      | .character c => "unexpected character " ++ Text.quoted (String.singleton c)
      | .ending => "unexpected end of input", some e.place.line, some e.place.column⟩ := by
  have hs := Parser.recognizes_statements
  have hp := Parser.recognizes_programs
  refine ⟨hs.read_eq_error_iff text, hp.read_eq_error_iff text, hs.ok_or_existsUnique text,
    hp.ok_or_existsUnique text, ?_⟩
  rintro ⟨place, offence⟩
  cases offence <;> rfl

end MatrixCalc
