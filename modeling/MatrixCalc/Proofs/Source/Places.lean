import Mathlib.Data.List.DropRight
import MatrixCalc.Proofs.Source.FirstOffence
import MatrixCalc.Proofs.Source.Separators
import MatrixCalc.Proofs.Text.Quotation

/-!
# Places in a source are exact

The pieces of a text cover it from its start, and each token has the place at which its text stands.
So the line and the column of an error lead to the text that its message quotes
(`places_of_source`).

1. A place is counted on piece by piece, and comes out as the line feeds before it and the characters
   behind the last of them (`Position.isBehind_after`).
2. Lines keep the line feeds that end them. The line of a place holds, from the column of the place on,
   the first line of what stands there (`lineFrom?_of_isBehind`).
3. A token is in one line (`Token.lineFeed_of_isLexeme`), and a message tells what it quotes
   (`Offence.quotes?_of_wording`).
-/

namespace MatrixCalc

/-! ## Lines and columns -/

namespace Position

/-- The place is the one behind the given text: in the line that the line feeds of the text lead to, and
behind what follows the last of them. -/
structure IsBehind (p : Position) (s : List Char) : Prop where
  line : p.line = 1 + s.count '\n'
  column : p.column = 1 + (s.rtakeWhile (· != '\n')).length

theorem isBehind_after (s : List Char) : (start.after s).IsBehind s := by
  refine ⟨after_line start s, ?_⟩
  induction s using List.reverseRecOn with
  | nil => rfl
  | append_singleton s c ih =>
    rw [after_append, after_cons, after_nil, List.rtakeWhile_concat]
    unfold next
    by_cases hc : c = '\n'
    · rw [if_pos hc, if_neg (by simp [hc])]
      rfl
    · rw [if_neg hc, if_pos (by simp [hc]), ih, List.length_append]
      rfl

end Position

namespace Text

/-- The lines of a text. A line feed stands at the end of its line, and what stands behind the last one
is a line too. -/
def fullLines : List Char → List (List Char)
  | [] => [[]]
  | c :: s => if c = '\n' then [c] :: fullLines s else (fullLines s).modifyHead (c :: ·)

/-- What a line of a text holds from a column on, both counted from one. -/
def lineFrom? (s : List Char) : (line column : ℕ) → Option (List Char)
  | line + 1, column + 1 => (fullLines s)[line]?.map (·.drop column)
  | _, _ => none

theorem fullLines_lineFeed (s : List Char) : fullLines ('\n' :: s) = ['\n'] :: fullLines s := by
  rw [fullLines, if_pos rfl]

theorem fullLines_cons_of_ne {c : Char} (h : c ≠ '\n') (s : List Char) :
    fullLines (c :: s) = (fullLines s).modifyHead (c :: ·) := by
  rw [fullLines, if_neg h]

theorem exists_fullLines (s : List Char) : ∃ line lines, fullLines s = line :: lines := by
  induction s with
  | nil => exact ⟨[], [], rfl⟩
  | cons c s ih =>
    obtain ⟨line, lines, h⟩ := ih
    by_cases hc : c = '\n'
    · rw [hc, fullLines_lineFeed]
      exact ⟨_, _, rfl⟩
    · rw [fullLines_cons_of_ne hc, h]
      exact ⟨_, _, rfl⟩

/-- Behind a line feed the lines of a text are those of what follows. -/
theorem exists_fullLines_append (s rest : List Char) :
    ∃ above, above.length = s.count '\n' + 1 ∧
      fullLines (s ++ '\n' :: rest) = above ++ fullLines rest := by
  induction s with
  | nil => exact ⟨[['\n']], rfl, fullLines_lineFeed rest⟩
  | cons c s ih =>
    obtain ⟨above, hlength, habove⟩ := ih
    by_cases hc : c = '\n'
    · rw [hc, List.count_cons_self, List.cons_append, fullLines_lineFeed, habove]
      exact ⟨['\n'] :: above, congrArg (· + 1) hlength, rfl⟩
    · rw [List.count_cons_of_ne hc, List.cons_append, fullLines_cons_of_ne hc, habove]
      cases above with
      | nil => cases hlength
      | cons line above => exact ⟨(c :: line) :: above, hlength, rfl⟩

/-- In the line to which the line feeds of a text lead, the text behind the last of them stands first,
and then the first line of what follows. -/
theorem getElem?_fullLines {rest line : List Char} {lines : List (List Char)}
    (h : fullLines rest = line :: lines) (before : List Char) :
    (fullLines (before ++ rest))[before.count '\n']? =
      some (before.rtakeWhile (· != '\n') ++ line) := by
  induction before using List.reverseRecOn generalizing rest line with
  | nil => rw [List.nil_append, h]; rfl
  | append_singleton s c ih =>
    rw [List.append_assoc, List.singleton_append, List.count_append, List.rtakeWhile_concat]
    by_cases hc : c = '\n'
    · obtain ⟨above, hlength, habove⟩ := exists_fullLines_append s rest
      rw [hc, habove, List.count_singleton_self, ← hlength, List.getElem?_append_right le_rfl, h]
      simp
    · have hcons : fullLines (c :: rest) = (c :: line) :: lines := by
        rw [fullLines_cons_of_ne hc, h]
        rfl
      rw [List.count_singleton, if_neg (by simpa using hc), Nat.add_zero, ih hcons,
        if_pos (bne_iff_ne.2 hc), List.append_assoc, List.singleton_append]

/-- From a place on, its line holds the first line of what stands there. -/
theorem lineFrom?_of_isBehind {p : Position} {before rest line : List Char} {lines : List (List Char)}
    (hp : p.IsBehind before) (h : fullLines rest = line :: lines) :
    lineFrom? (before ++ rest) p.line p.column = some line := by
  rw [hp.line, hp.column, Nat.add_comm, Nat.add_comm 1, lineFrom?, getElem?_fullLines h]
  exact congrArg some List.drop_left

/-- A text without line feeds stands in the first line, and so does a line feed. -/
theorem prefix_of_fullLines {r rest line : List Char} {lines : List (List Char)}
    (hr : '\n' ∉ r ∨ r = ['\n']) (h : fullLines (r ++ rest) = line :: lines) : r <+: line := by
  rcases hr with hr | rfl
  · obtain ⟨line', lines', hrest⟩ := exists_fullLines rest
    have hfirst := getElem?_fullLines hrest r
    have hself : r.rtakeWhile (· != '\n') = r :=
      List.rtakeWhile_eq_self_iff.2 fun c hc => bne_iff_ne.2 fun he => hr (he ▸ hc)
    rw [List.count_eq_zero.2 hr, h, hself, List.getElem?_cons_zero, Option.some.injEq] at hfirst
    exact ⟨line', hfirst.symm⟩
  · have hlines := (fullLines_lineFeed rest).symm.trans h
    exact ⟨[], (List.cons.inj hlines).1⟩

/-- From its place on, the line of a text begins with the text. -/
theorem exists_lineFrom? {p : Position} {before r : List Char} (hp : p.IsBehind before)
    (hr : '\n' ∉ r ∨ r = ['\n']) (rest : List Char) :
    ∃ u, lineFrom? (before ++ (r ++ rest)) p.line p.column = some u ∧ r <+: u := by
  obtain ⟨line, lines, h⟩ := exists_fullLines (r ++ rest)
  exact ⟨line, lineFrom?_of_isBehind hp h, prefix_of_fullLines hr h⟩

end Text

/-! ## What an error quotes -/

open Text

/-- A token stands in one line. -/
theorem Token.lineFeed_of_isLexeme {t : Token} (h : (Piece.token t).IsLexeme) :
    '\n' ∉ t.text.toList ∨ t.text.toList = ['\n'] := by
  by_cases hmem : '\n' ∈ t.text.toList
  · have hc : Token.ofChar? '\n' = some .lineEnd := rfl
    rcases Lexer.eq_token_of_separator_mem hc rfl h hmem with heq | ⟨hsemicolon, -⟩
    · cases heq
      exact .inr rfl
    · cases hsemicolon
  · exact .inl hmem

namespace Offence

/-- The text that the wording of an offence quotes. -/
def quotes? : Offence → Option String
  | .token t => some t.text
  | .character c => some (String.singleton c)
  | .ending => none

theorem ne_of_getElem? {a b : String} (h : a.toList[11]? ≠ b.toList[11]?) : a ≠ b := by
  rintro rfl
  exact h rfl

/-- The wording tells what is quoted: the kinds of offences part at its twelfth character. -/
theorem quotes?_of_wording {o : Offence} {r : String}
    (h : o.wording = "unexpected token " ++ quoted r ∨
      o.wording = "unexpected character " ++ quoted r) : o.quotes? = some r := by
  have hapart : ∀ a b : String, "unexpected token " ++ a ≠ "unexpected character " ++ b :=
    fun a b => ne_of_getElem? (by simp)
  have htoken : ∀ a : String, "unexpected end of input" ≠ "unexpected token " ++ a :=
    fun a => ne_of_getElem? (by simp)
  have hcharacter : ∀ a : String, "unexpected end of input" ≠ "unexpected character " ++ a :=
    fun a => ne_of_getElem? (by simp)
  cases o with
  | token t =>
    rcases h with h | h
    · exact congrArg some (quoted_injective ((String.append_right_inj "unexpected token ").1 h))
    · exact absurd h (hapart _ _)
  | character c =>
    rcases h with h | h
    · exact absurd h.symm (hapart _ _)
    · exact congrArg some (quoted_injective ((String.append_right_inj "unexpected character ").1 h))
  | ending =>
    rcases h with h | h
    · exact absurd h (htoken _)
    · exact absurd h (hcharacter _)

end Offence

theorem ParseError.report_eq_iff {e : ParseError} {wording : String} {line column : ℕ} :
    e.report = ⟨wording, some line, some column⟩ ↔
      e.offence.wording = wording ∧ e.place.line = line ∧ e.place.column = column := by
  unfold report
  rw [Report.mk.injEq, Option.some.injEq, Option.some.injEq, Int.natCast_inj, Int.natCast_inj]

/-- The line and the column of an error lead to what it quotes. -/
theorem FirstOffence.exists_lineFrom? {L : Language Token} {s : List Char} {e : ParseError}
    {r : String} (h : FirstOffence L s e) (hr : e.offence.quotes? = some r) :
    ∃ u, lineFrom? s e.place.line e.place.column = some u ∧ r.toList <+: u := by
  obtain ⟨place, offence⟩ := e
  cases offence with
  | ending => cases hr
  | token t =>
    cases hr
    obtain ⟨ps, rest, hcut, rfl, -⟩ := h
    have hs := hcut.chars_append
    rw [List.flatMap_append, List.append_assoc, List.flatMap_singleton] at hs
    rw [← hs]
    exact Text.exists_lineFrom? (Position.isBehind_after _)
      (Token.lineFeed_of_isLexeme (hcut.isLexeme _ (by simp))) rest
  | character c =>
    cases hr
    obtain ⟨ps, rest, hcut, rfl, -⟩ := h
    have hone : '\n' ∉ [c] ∨ [c] = ['\n'] := by
      by_cases hc : c = '\n'
      · exact .inr (by rw [hc])
      · exact .inl fun hmem => hc (List.mem_singleton.1 hmem).symm
    rw [← hcut.chars_append, String.toList_singleton]
    exact Text.exists_lineFrom? (Position.isBehind_after _) hone rest

/-- A token that the lexer finds is one of its pieces, and has the place behind the text of the pieces
before it. -/
theorem isBehind_of_lex {text : String} {us vs : List (Located Token)} {t : Located Token}
    (h : (lex text).tokens = us ++ t :: vs) :
    ∃ before behind, (Lexer.pieces text.toList).1 = before ++ .token t.item :: behind ∧
      before.filterMap Piece.token? = us.map (·.item) ∧
      t.place.IsBehind (before.flatMap Piece.chars) := by
  obtain ⟨before, behind, hpieces, rfl, hplace⟩ := Lexer.exists_of_locate h
  rw [hplace, Lexer.map_item_locate]
  exact ⟨before, behind, hpieces, rfl, Position.isBehind_after _⟩

/-- **Places.** The tokens, blanks and comments that the lexer finds follow one another from the start
of the text to its end, or to where nothing starts, and each token has the place that the text before
it leads to. If parsing fails at a token or at a character, then the line of the error, from its column on,
begins with the text that the message quotes. -/
theorem places_of_source (text : String) :
    (∃ ps rest, Lexer.pieces text.toList = (ps, rest) ∧
      ps.flatMap Piece.chars ++ rest = text.toList ∧
      (∀ p ∈ ps, p.IsLexeme) ∧ (∀ p : Piece, p.IsLexeme → ¬ p.chars <+: rest) ∧
      (lex text).tokens.map (·.item) = ps.filterMap Piece.token? ∧
      ∀ us t vs, (lex text).tokens = us ++ t :: vs →
        ∃ before behind, ps = before ++ .token t.item :: behind ∧
          before.filterMap Piece.token? = us.map (·.item) ∧
          t.place.IsBehind (before.flatMap Piece.chars)) ∧
    ∀ e : ParseError, parseStatement text = .error e ∨ parseProgram text = .error e →
      ∀ (r : String) (line column : ℕ),
        e.report = ⟨"unexpected token " ++ quoted r, some line, some column⟩ ∨
          e.report = ⟨"unexpected character " ++ quoted r, some line, some column⟩ →
        ∃ u, lineFrom? text.toList line column = some u ∧ r.toList <+: u := by
  have hcut := Lexer.cut_pieces text.toList
  refine ⟨⟨_, _, rfl, hcut.chars_append, hcut.isLexeme,
    Lexer.piece?_eq_none_iff.1 (Lexer.piece?_pieces text.toList), Lexer.map_item_locate _ _,
    fun us t vs h => isBehind_of_lex h⟩, ?_⟩
  intro e he r line column hreport
  have hoffence : ∃ L, FirstOffence L text.toList e := by
    rcases he with he | he
    · exact ⟨_, (Parser.recognizes_statements.read_eq_error_iff text e).1 he⟩
    · exact ⟨_, (Parser.recognizes_programs.read_eq_error_iff text e).1 he⟩
  obtain ⟨L, hfirst⟩ := hoffence
  have hparts : (e.offence.wording = "unexpected token " ++ quoted r ∨
      e.offence.wording = "unexpected character " ++ quoted r) ∧
        e.place.line = line ∧ e.place.column = column := by
    rcases hreport with h | h
    · obtain ⟨hwording, hplace⟩ := ParseError.report_eq_iff.1 h
      exact ⟨.inl hwording, hplace⟩
    · obtain ⟨hwording, hplace⟩ := ParseError.report_eq_iff.1 h
      exact ⟨.inr hwording, hplace⟩
  obtain ⟨hwording, rfl, rfl⟩ := hparts
  exact hfirst.exists_lineFrom? (Offence.quotes?_of_wording hwording)

/-- A comment with a carriage return, a tab and a digit of another script stand before the offence. -/
theorem places_of_source_comment :
    let text := "x = 1 # é;\r\n\t٣ + )"
    let us : List (Located Token) := [⟨⟨1, 1⟩, .name "x"⟩, ⟨⟨1, 3⟩, .equals⟩, ⟨⟨1, 5⟩, .number "1"⟩,
      ⟨⟨1, 12⟩, .lineEnd⟩, ⟨⟨2, 2⟩, .number "٣"⟩, ⟨⟨2, 4⟩, .plus⟩]
    let t : Located Token := ⟨⟨2, 6⟩, .closeParen⟩
    let e : ParseError := ⟨⟨2, 6⟩, .token .closeParen⟩
    (lex text).tokens = us ++ [t] ∧ parseProgram text = .error e ∧
    e.report = ⟨"unexpected token " ++ quoted ")", some (2 : ℕ), some (6 : ℕ)⟩ ∧
    (∃ before behind, (Lexer.pieces text.toList).1 = before ++ .token t.item :: behind ∧
      t.place.IsBehind (before.flatMap Piece.chars)) ∧
    ∃ u, lineFrom? text.toList 2 6 = some u ∧ ")".toList <+: u := by
  intro text us t e
  have htokens : (lex text).tokens = us ++ [t] := by
    dsimp only [text, us, t]
    with_unfolding_all rfl
  have hparse : parseProgram text = .error e := by
    dsimp only [text, e]
    with_unfolding_all rfl
  have hreport : e.report = ⟨"unexpected token " ++ quoted ")", some (2 : ℕ), some (6 : ℕ)⟩ := rfl
  obtain ⟨⟨ps, rest, hpieces, -, -, -, -, hplaces⟩, herror⟩ := places_of_source text
  obtain ⟨before, behind, hps, -, hbehind⟩ := hplaces us t [] htokens
  refine ⟨htokens, hparse, hreport, ⟨before, behind, ?_, hbehind⟩,
    herror e (.inr hparse) ")" 2 6 (.inl hreport)⟩
  rw [hpieces]
  exact hps

end MatrixCalc
