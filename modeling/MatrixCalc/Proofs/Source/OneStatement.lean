import MatrixCalc.Proofs.Source.FirstOffence
import MatrixCalc.Proofs.Source.Trimming

/-!
# One statement and programs of one statement

A text is read as a statement by one machine and as a program by another. On a text without
separators the two go the same way, to the same tree or to the same error; a text with a separator is
no statement (`parseStatement_iff_parseProgram`).

1. `IsSeparatorBehind` finds separators by the characters alone: line ends, and semicolons with no hash
   before them on their line. These are the separators among the pieces of a text
   (`Cut.prefix_or_separator`, `Cut.holdsSeparator`), also of one that cannot be cut to its end.
2. Step by step, the program's machine carries the state of the statement's (`feed_program`). They part
   only at the end, and only if nothing has been read (`finish?_of_ne_start`), so on texts of blanks
   and comments (`isVoid_iff`).
3. No prefix of a statement holds a separator, so the first offence is none behind one
   (`FirstOffence.prefix_of_separator`).
-/

namespace MatrixCalc

open Grammar

/-! ## Separators by their characters -/

namespace Lexer

/-- The character is a separator where it stands behind the text: a line end, or a semicolon with no
hash before it on its line. -/
def IsSeparatorBehind (before : List Char) (c : Char) : Prop :=
  c = '\n' ∨ c = ';' ∧ ∀ u v, before = u ++ '#' :: v → '\n' ∈ v

/-- A separator stands in the text. -/
def HoldsSeparator (s : List Char) : Prop :=
  ∃ before c behind, s = before ++ c :: behind ∧ IsSeparatorBehind before c

theorem IsSeparatorBehind.of_append {u v : List Char} {c : Char}
    (h : IsSeparatorBehind (u ++ v) c) : IsSeparatorBehind v c := by
  rcases h with h | ⟨h, hhash⟩
  · exact .inl h
  · refine .inr ⟨h, ?_⟩
    rintro x y rfl
    exact hhash (u ++ x) y (List.append_assoc ..).symm

theorem IsSeparatorBehind.exists_token {before : List Char} {c : Char}
    (h : IsSeparatorBehind before c) : ∃ t, Token.ofChar? c = some t ∧ t.isSeparator = true := by
  rcases h with rfl | ⟨rfl, -⟩
  · exact ⟨.lineEnd, rfl, rfl⟩
  · exact ⟨.semicolon, rfl, rfl⟩

/-- A lexeme that reaches over a separator is that separator: the semicolon of a comment has the hash
of the comment before it. -/
theorem exists_separator_of_chars {p : Piece} (hp : p.IsLexeme) {before more : List Char} {c : Char}
    (hchars : p.chars = before ++ c :: more) (hc : IsSeparatorBehind before c) :
    ∃ t, p = .token t ∧ t.isSeparator = true := by
  obtain ⟨t, ht, hsep⟩ := hc.exists_token
  have hmem : c ∈ p.chars := by
    rw [hchars]
    exact List.mem_append_right _ List.mem_cons_self
  rcases eq_token_of_separator_mem ht hsep hp hmem with rfl | ⟨rfl, r, rfl⟩
  · exact ⟨t, rfl, hsep⟩
  · obtain ⟨r, rfl, hr⟩ := Terminal.mem_comment.1 hp
    rcases hc with hc | ⟨-, hhash⟩
    · exact absurd hc (by decide)
    · cases before with
      | nil => exact absurd (List.cons.inj hchars).1 (by decide)
      | cons d before =>
        obtain ⟨rfl, rfl⟩ := List.cons.inj hchars
        have hline := hhash [] before rfl
        exact absurd (hr _ (List.mem_append_left _ hline)) (by decide)

/-- Pieces at the head of a text end before a separator, or hold one. -/
theorem Cut.prefix_or_separator {s rest before behind : List Char} {ps : List Piece} {c : Char}
    (h : Cut s ps rest) (hs : s = before ++ c :: behind) (hc : IsSeparatorBehind before c) :
    ps.flatMap Piece.chars <+: before ∨ ∃ t, .token t ∈ ps ∧ t.isSeparator = true := by
  induction h generalizing before with
  | nil s => exact .inl List.nil_prefix
  | @cons s middle rest p ps hl _ ih =>
    have hnext : ∀ more, before = p.chars ++ more → middle = more ++ c :: behind →
        (p :: ps).flatMap Piece.chars <+: before ∨
          ∃ t, .token t ∈ p :: ps ∧ t.isSeparator = true := by
      rintro more rfl hmiddle
      rcases ih hmiddle hc.of_append with hprefix | ⟨t, ht, hsep⟩
      · exact .inl ((List.prefix_append_right_inj _).2 hprefix)
      · exact .inr ⟨t, List.mem_cons_of_mem _ ht, hsep⟩
    -- the first piece ends before the separator, or reaches over it and is one
    have happ := hl.append
    rw [hs, List.append_eq_append_iff] at happ
    rcases happ with ⟨more, hbefore, hmiddle⟩ | ⟨more, hchars, hmore⟩
    · exact hnext more hbefore hmiddle
    · cases more with
      | nil => exact hnext [] (by rw [hchars, List.append_nil, List.append_nil]) hmore.symm
      | cons d more =>
        obtain ⟨rfl, -⟩ := List.cons.inj hmore
        obtain ⟨t, rfl, hsep⟩ := exists_separator_of_chars hl.isLexeme hchars hc
        exact .inr ⟨t, List.mem_cons_self, hsep⟩

/-- Only comments hold a hash. -/
theorem exists_comment_of_hash_mem {p : Piece} (hp : p.IsLexeme) (h : '#' ∈ p.chars) :
    ∃ r, p = .comment r := by
  cases p with
  | comment r => exact ⟨r, rfl⟩
  | blank s => exact absurd ((Terminal.mem_blank.1 hp).2 _ h) (by decide)
  | token t =>
    exfalso
    cases t with
    | name x => exact absurd (isNameRest_of_mem_name hp.1 h) (by decide)
    | number x =>
      rcases Terminal.mem_of_mem_number hp h with hd | hd
      · exact absurd hd (by decide)
      · exact absurd hd (by decide)
    | _ => exact absurd h (by decide)

/-- A comment reaches to the end of its line. -/
theorem Longest.head_of_comment {s r middle : List Char} {d : Char}
    (h : Longest s (.comment r) (d :: middle)) : d = '\n' := by
  by_contra hd
  obtain ⟨r', rfl, hr'⟩ := Terminal.mem_comment.1 h.isLexeme
  have hlexeme : (Piece.comment ('#' :: (r' ++ [d]))).IsLexeme := by
    refine Terminal.mem_comment.2 ⟨_, rfl, ?_⟩
    rw [List.forall_mem_append, List.forall_mem_singleton]
    exact ⟨hr', bne_iff_ne.2 hd⟩
  have hle := h.longest _ hlexeme ⟨middle, by rw [← h.append]; simp [Piece.chars]⟩
  simp only [Piece.chars, List.length_cons, List.length_append, List.length_nil] at hle
  omega

/-- Behind a hash, pieces that do not end at a line end go over one. -/
theorem Cut.lineEnd_mem_of_hash {s rest u v : List Char} {ps : List Piece} {c : Char}
    (h : Cut s ps (c :: rest)) (hc : c ≠ '\n') (hu : ps.flatMap Piece.chars = u ++ '#' :: v) :
    '\n' ∈ v := by
  generalize htail : c :: rest = tail at h
  induction h generalizing u with
  | nil s => simp at hu
  | @cons s middle tail p ps hl hcut ih =>
    subst htail
    rw [List.flatMap_cons, List.append_eq_append_iff] at hu
    rcases hu with ⟨more, -, hps⟩ | ⟨more, hchars, hmore⟩
    · exact ih hps rfl
    · cases more with
      | nil => exact ih (u := []) hmore.symm rfl
      | cons d more =>
        obtain ⟨rfl, rfl⟩ := List.cons.inj hmore
        have hhash : '#' ∈ p.chars := by
          rw [hchars]
          exact List.mem_append_right _ List.mem_cons_self
        obtain ⟨r, rfl⟩ := exists_comment_of_hash_mem hl.isLexeme hhash
        -- what stands behind the comment is a line end, and it belongs to the pieces
        have hmiddle := hcut.chars_append
        cases hps : ps.flatMap Piece.chars with
        | nil =>
          rw [hps, List.nil_append] at hmiddle
          rw [← hmiddle] at hl
          exact absurd hl.head_of_comment hc
        | cons e qs =>
          rw [hps, List.cons_append] at hmiddle
          rw [← hmiddle] at hl
          rw [hl.head_of_comment]
          exact List.mem_append_right _ List.mem_cons_self

/-- A separator among the pieces stands in the text. -/
theorem Cut.holdsSeparator {s rest : List Char} {ps : List Piece} {t : Token} (h : Cut s ps rest)
    (ht : .token t ∈ ps) (hsep : t.isSeparator = true) : HoldsSeparator s := by
  obtain ⟨qs, rs, rfl⟩ := List.append_of_mem ht
  obtain ⟨middle, hqs, hrs⟩ := Cut.append_iff.1 h
  cases hrs with
  | @cons _ behind _ _ _ hl _ =>
    have hs := hqs.chars_append
    rw [← hl.append] at hs hqs
    cases t with
    | semicolon =>
      exact ⟨_, ';', behind, hs.symm, .inr ⟨rfl, fun u v => hqs.lineEnd_mem_of_hash (by decide)⟩⟩
    | lineEnd => exact ⟨_, '\n', behind, hs.symm, .inl rfl⟩
    | _ => cases hsep

theorem not_prefix_append_cons (before behind : List Char) (c : Char) :
    ¬ before ++ c :: behind <+: before := by
  intro h
  have hle := h.length_le
  rw [List.length_append, List.length_cons] at hle
  omega

/-- The separators of a text are those among its tokens. -/
theorem holdsSeparator_iff {s : List Char} {w : List Token} (h : Splits s w) :
    HoldsSeparator s ↔ ∃ t ∈ w, t.isSeparator = true := by
  obtain ⟨hrest, rfl⟩ := splits_iff.1 h
  have hcut := cut_pieces s
  rw [hrest] at hcut
  constructor
  · rintro ⟨before, c, behind, hs, hc⟩
    rcases hcut.prefix_or_separator hs hc with hprefix | ⟨t, ht, hsep⟩
    · have happ := hcut.chars_append
      rw [List.append_nil] at happ
      rw [happ, hs] at hprefix
      exact absurd hprefix (not_prefix_append_cons before behind c)
    · exact ⟨t, List.mem_filterMap.2 ⟨_, ht, rfl⟩, hsep⟩
  · rintro ⟨t, ht, hsep⟩
    obtain ⟨p, hp, hpt⟩ := List.mem_filterMap.1 ht
    cases p with
    | token u =>
      cases hpt
      exact hcut.holdsSeparator hp hsep
    | blank s => cases hpt
    | comment s => cases hpt

/-! ## Texts without tokens -/

/-- The text is made of blanks and comments only. -/
def IsVoid (s : List Char) : Prop :=
  ∃ ps : List Piece, (∀ p ∈ ps, p.IsLexeme ∧ p.token? = none) ∧ ps.flatMap Piece.chars = s

theorem lineEnd_not_mem_of_skipped {p : Piece} (hp : p.IsLexeme) (htoken : p.token? = none) :
    '\n' ∉ p.chars := by
  intro hmem
  rcases eq_token_of_separator_mem (t := .lineEnd) rfl rfl hp hmem with rfl | ⟨hc, -⟩
  · cases htoken
  · exact absurd hc (by decide)

theorem IsVoid.lineEnd_not_mem {s : List Char} (h : IsVoid s) : '\n' ∉ s := by
  obtain ⟨ps, hps, rfl⟩ := h
  intro hmem
  obtain ⟨p, hp, hmem⟩ := List.mem_flatMap.1 hmem
  exact lineEnd_not_mem_of_skipped (hps p hp).1 (hps p hp).2 hmem

/-- Blanks and comments in a row are cut as such, if not as the same ones: a comment takes what
stands behind it. -/
theorem splits_of_isVoid {s : List Char} (h : IsVoid s) : Splits s [] := by
  obtain ⟨ps, hps, rfl⟩ := h
  induction ps with
  | nil => exact .nil
  | cons p ps ih =>
    have hline := IsVoid.lineEnd_not_mem ⟨p :: ps, hps, rfl⟩
    rw [List.forall_mem_cons] at hps
    rw [List.flatMap_cons] at hline ⊢
    cases p with
    | token t => cases hps.1.2
    | blank b => exact (ih hps.2).append_skipped (Terminal.mem_blank.1 hps.1.1).2
    | comment b =>
      obtain ⟨r, rfl, -⟩ := Terminal.mem_comment.1 hps.1.1
      exact splits_comment rfl hline

theorem isVoid_iff {s : List Char} : IsVoid s ↔ Splits s [] := by
  refine ⟨splits_of_isVoid, fun h => ?_⟩
  obtain ⟨hrest, htokens⟩ := splits_iff.1 h
  refine ⟨(pieces s).1, fun p hp => ⟨(cut_pieces s).isLexeme p hp, ?_⟩, ?_⟩
  · exact List.filterMap_eq_nil_iff.1 htokens p hp
  · have happ := pieces_append s
    rwa [hrest, List.append_nil] at happ

end Lexer

/-! ## The two machines -/

namespace State

/-- Nothing leads back to the start. -/
theorem step_ne_start (s : State) (t : Token) : s.step t ≠ some .start := by
  intro h
  have hoperand : ∀ c level, stepOperand c level t ≠ some .start := by
    intro c level h
    cases settled_of_stepOperand c level h
  have hcomplete : ∀ c e, stepComplete c e t ≠ some .start := by
    intro c e h
    cases settled_of_stepComplete c e h
  cases s with
  | start => cases t with
    | name x => cases h
    | _ => exact hoperand ⟨none, []⟩ .empty h
  | named x => cases t with
    | equals => cases h
    | _ => exact hcomplete ⟨none, []⟩ (.variable x) h
  | operand c level => exact hoperand c level h
  | keyword c level => cases t <;> cases h
  | complete c e => exact hcomplete c e h

/-- A run takes no separators. -/
theorem not_isSeparator_of_run {s s' : State} {w : List Token} (h : s.run w = some s') :
    ∀ t ∈ w, t.isSeparator = false := by
  induction w generalizing s with
  | nil => exact List.forall_mem_nil _
  | cons t w ih =>
    unfold run at h
    rw [List.foldlM_cons] at h
    obtain ⟨s₁, h₁, h₂⟩ := Option.bind_eq_some_iff.1 h
    rw [List.forall_mem_cons]
    refine ⟨Bool.eq_false_iff.2 fun hsep => ?_, ih h₂⟩
    rw [step_separator hsep] at h₁
    cases h₁

end State

theorem ProgramState.finish?_of_ne_start {s : State} (h : s ≠ .start) :
    ProgramState.finish? ⟨[], s⟩ = s.finish?.map fun t => [t] := by
  unfold finish? endStatement?
  dsimp only
  split
  · exact absurd rfl h
  · rw [Option.map_map]
    rfl

namespace Parser

/-- Tokens that separate nothing are read by a program's machine as by that of its statement. -/
theorem feed_program {ts : List (Located Token)} (h : ∀ t ∈ ts, t.item.isSeparator = false)
    (done : List Tree) (s : State) :
    feed ProgramState.step ⟨done, s⟩ ts = (feed State.step s ts).map (ProgramState.mk done) := by
  induction ts generalizing s with
  | nil => rfl
  | cons t ts ih =>
    rw [List.forall_mem_cons] at h
    unfold feed ProgramState.step
    rw [h.1, if_neg Bool.false_ne_true]
    dsimp only
    cases s.step t.item with
    | none => rfl
    | some s' => exact ih h.2 s'

theorem eq_nil_of_feed_start {s : State} {ts : List (Located Token)}
    (h : feed State.step s ts = .ok .start) : ts = [] := by
  rcases List.eq_nil_or_concat' ts with rfl | ⟨us, t, rfl⟩
  · rfl
  · rw [feed_eq_ok_iff, List.map_append, List.foldlM_append] at h
    obtain ⟨s', -, hs'⟩ := Option.bind_eq_some_iff.1 h
    rw [List.map_singleton, List.foldlM_cons] at hs'
    obtain ⟨s₁, hstep, hstart⟩ := Option.bind_eq_some_iff.1 hs'
    cases hstart
    exact absurd hstep (State.step_ne_start s' t.item)

end Parser

theorem isSeparator_of_mem_lex {text : String} (h : ¬ Lexer.HoldsSeparator text.toList) :
    ∀ t ∈ (lex text).tokens, t.item.isSeparator = false := by
  intro t ht
  have hitem := List.mem_map_of_mem (f := fun t => t.item) ht
  have hlex : lex text = _ := lex_of_pieces rfl
  rw [hlex, Lexer.map_item_locate] at hitem
  obtain ⟨p, hp, hpt⟩ := List.mem_filterMap.1 hitem
  rw [Bool.eq_false_iff]
  intro hsep
  cases p with
  | token u =>
    cases hpt
    exact h ((Lexer.cut_pieces _).holdsSeparator hp hsep)
  | blank s => cases hpt
  | comment s => cases hpt

/-- On a text without separators, and with a token or a character at which nothing starts, the two
machines agree. -/
theorem parseProgram_eq_map {text : String} (h : ¬ Lexer.HoldsSeparator text.toList)
    (hvoid : ¬ Lexer.IsVoid text.toList) :
    parseProgram text = (parseStatement text).map fun t => [t] := by
  have hfeed := Parser.feed_program (isSeparator_of_mem_lex h) [] .start
  unfold parseProgram parseStatement Parser.read ProgramState.start
  rw [hfeed]
  cases hs : Parser.feed State.step .start (lex text).tokens with
  | error t => rfl
  | ok s =>
    dsimp only [Except.map]
    cases hstuck : (lex text).stuck with
    | some c => rfl
    | none =>
      have hne : s ≠ .start := by
        rintro rfl
        refine hvoid (Lexer.isVoid_iff.2 (Lexer.splits_iff_lex.2 ⟨hstuck, ?_⟩))
        rw [Parser.eq_nil_of_feed_start hs, List.map_nil]
      dsimp only
      rw [ProgramState.finish?_of_ne_start hne]
      cases s.finish? <;> rfl

/-- A text of blanks and comments is the empty program, and too short for a statement. -/
theorem parse_of_isVoid {text : String} (h : Lexer.IsVoid text.toList) :
    parseProgram text = .ok [] ∧ parseStatement text = .error ⟨⟨1, 1⟩, .ending⟩ := by
  obtain ⟨hstuck, hitems⟩ := Lexer.splits_iff_lex.1 (Lexer.isVoid_iff.1 h)
  have htokens := List.map_eq_nil_iff.1 hitems
  unfold parseProgram parseStatement Parser.read
  rw [htokens, hstuck]
  exact ⟨rfl, rfl⟩

/-! ## Offences before separators -/

theorem not_isSeparator_of_viable {w : List Token} (h : Viable statements w) :
    ∀ t ∈ w, t.isSeparator = false := by
  obtain ⟨_, ⟨-, t, ht⟩, v, rfl⟩ := h
  obtain ⟨s, hs, -⟩ := State.run_statement ht
  exact fun u hu => State.not_isSeparator_of_run hs u (List.mem_append_left _ hu)

/-- The pieces before the first offence end before every separator. -/
theorem Lexer.Cut.prefix_of_viable {s rest before behind : List Char} {ps : List Piece} {c : Char}
    (h : Lexer.Cut s ps rest) (hviable : Viable statements (ps.filterMap Piece.token?))
    (hs : s = before ++ c :: behind) (hc : Lexer.IsSeparatorBehind before c) :
    ps.flatMap Piece.chars <+: before := by
  rcases h.prefix_or_separator hs hc with hprefix | ⟨t, ht, hsep⟩
  · exact hprefix
  · have hmem : t ∈ ps.filterMap Piece.token? := List.mem_filterMap.2 ⟨_, ht, rfl⟩
    rw [not_isSeparator_of_viable hviable t hmem] at hsep
    cases hsep

/-- The first offence against a statement is at or before every separator. -/
theorem FirstOffence.prefix_of_separator {s before behind : List Char} {c : Char} {e : ParseError}
    (h : FirstOffence statements s e) (hs : s = before ++ c :: behind)
    (hc : Lexer.IsSeparatorBehind before c) :
    ∃ u, u <+: before ∧ e.place = Position.start.after u := by
  obtain ⟨place, offence⟩ := e
  cases offence with
  | token t =>
    obtain ⟨ps, rest, hcut, hplace, hviable, -⟩ := h
    obtain ⟨middle, hps, -⟩ := Lexer.Cut.append_iff.1 hcut
    exact ⟨_, hps.prefix_of_viable hviable hs hc, hplace⟩
  | character d =>
    obtain ⟨ps, rest, hcut, hplace, hviable, -⟩ := h
    exact ⟨_, hcut.prefix_of_viable hviable hs hc, hplace⟩
  | ending =>
    -- the whole text would stand before the separator
    obtain ⟨ps, hcut, -, hviable, -⟩ := h
    have hprefix := hcut.prefix_of_viable hviable hs hc
    have happ := hcut.chars_append
    rw [List.append_nil] at happ
    rw [happ, hs] at hprefix
    exact absurd hprefix (Lexer.not_prefix_append_cons before behind c)

theorem parseStatement_eq_ok_iff_program {text : String} {t : Tree} :
    parseStatement text = .ok t ↔
      parseProgram text = .ok [t] ∧ ¬ Lexer.HoldsSeparator text.toList := by
  constructor
  · intro h
    obtain ⟨w, hw, ht⟩ := parseStatement_eq_ok_iff.1 h
    refine ⟨parseProgram_eq_ok_iff.2 ⟨w, hw, .mk .nil (.filled ht)⟩, ?_⟩
    rw [Lexer.holdsSeparator_iff hw]
    rintro ⟨u, hu, hsep⟩
    obtain ⟨s, hs, -⟩ := State.run_statement ht
    rw [State.not_isSeparator_of_run hs u hu] at hsep
    cases hsep
  · rintro ⟨hprogram, hsep⟩
    have hvoid : ¬ Lexer.IsVoid text.toList := by
      intro hvoid
      rw [(parse_of_isVoid hvoid).1] at hprogram
      cases hprogram
    rw [parseProgram_eq_map hsep hvoid] at hprogram
    cases hs : parseStatement text with
    | error e =>
      rw [hs] at hprogram
      cases hprogram
    | ok u =>
      rw [hs] at hprogram
      cases hprogram
      rfl

/-- **One statement.** A text is a statement if and only if it is the program of that one statement and
holds no separator. A text without separators is refused by both readers or by none, and with the
same error, unless it has only blanks and comments: then it is the empty program, and ends too early
for a statement. A text with separators is no statement, and its first offence stands at or before
each of them. Where the whole text is cut, the separators are those among its tokens. -/
theorem parseStatement_iff_parseProgram (text : String) :
    (∀ t, parseStatement text = .ok t ↔
      parseProgram text = .ok [t] ∧ ¬ Lexer.HoldsSeparator text.toList) ∧
    (¬ Lexer.HoldsSeparator text.toList → ¬ Lexer.IsVoid text.toList →
      ∀ e, parseStatement text = .error e ↔ parseProgram text = .error e) ∧
    (Lexer.IsVoid text.toList → parseProgram text = .ok [] ∧
      ∃ e, parseStatement text = .error e ∧
        e.report = ⟨"unexpected end of input", some 1, some 1⟩) ∧
    (∀ before c behind, text.toList = before ++ c :: behind → Lexer.IsSeparatorBehind before c →
      ∃ e u, parseStatement text = .error e ∧ u <+: before ∧ e.place = Position.start.after u) ∧
    (∀ w, Lexer.Splits text.toList w →
      (Lexer.HoldsSeparator text.toList ↔ ∃ t ∈ w, t.isSeparator = true)) := by
  refine ⟨fun t => parseStatement_eq_ok_iff_program, ?_, ?_, ?_, fun w => Lexer.holdsSeparator_iff⟩
  · intro hsep hvoid e
    rw [parseProgram_eq_map hsep hvoid]
    cases parseStatement text with
    | error e' =>
      rw [Except.map, Except.error.injEq, Except.error.injEq]
    | ok t => exact ⟨nofun, nofun⟩
  · intro hvoid
    obtain ⟨hprogram, hstatement⟩ := parse_of_isVoid hvoid
    exact ⟨hprogram, _, hstatement, rfl⟩
  · intro before c behind htext hc
    cases hparse : parseStatement text with
    | ok t =>
      have hsep := (parseStatement_eq_ok_iff_program.1 hparse).2
      exact absurd ⟨before, c, behind, htext, hc⟩ hsep
    | error e =>
      have hoffence := (Parser.recognizes_statements.read_eq_error_iff text e).1 hparse
      obtain ⟨u, hu, hplace⟩ := hoffence.prefix_of_separator htext hc
      exact ⟨e, u, rfl, hu, hplace⟩

theorem parseStatement_iff_parseProgram_semicolons :
    (let text := "1 + # 2; 3"
     ¬ Lexer.HoldsSeparator text.toList ∧ ¬ Lexer.IsVoid text.toList ∧
       ∀ e, parseStatement text = .error e ↔ parseProgram text = .error e) ∧
    (let text := "1; 2 # 3"
     ∃ e u, parseStatement text = .error e ∧ u <+: ['1'] ∧ e.place = Position.start.after u) ∧
    (let text := " # 1; 2"
     Lexer.IsVoid text.toList ∧ parseProgram text = .ok [] ∧
       ∃ e, parseStatement text = .error e ∧
         e.report = ⟨"unexpected end of input", some 1, some 1⟩) := by
  refine ⟨?_, ?_, ?_⟩
  · intro text
    have hsplits : Lexer.Splits text.toList [.number "1", .plus] :=
      Lexer.splits_iff.2 (by decide +kernel)
    have hsep : ¬ Lexer.HoldsSeparator text.toList := by
      rw [Lexer.holdsSeparator_iff hsplits]
      decide
    have hvoid : ¬ Lexer.IsVoid text.toList := by
      intro hvoid
      cases splits_unique hsplits (Lexer.isVoid_iff.1 hvoid)
    exact ⟨hsep, hvoid, (parseStatement_iff_parseProgram text).2.1 hsep hvoid⟩
  · intro text
    refine (parseStatement_iff_parseProgram text).2.2.2.1 ['1'] ';' " 2 # 3".toList
      (by decide +kernel) (.inr ⟨rfl, ?_⟩)
    intro u v h
    have hmem : '#' ∈ ['1'] := h ▸ List.mem_append_right u List.mem_cons_self
    exact absurd hmem (by decide)
  · intro text
    have hvoid : Lexer.IsVoid text.toList :=
      Lexer.isVoid_iff.2 (Lexer.splits_iff.2 (by decide +kernel))
    exact ⟨hvoid, (parseStatement_iff_parseProgram text).2.2.1 hvoid⟩

end MatrixCalc
