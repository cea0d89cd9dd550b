import MatrixCalc.Source.Position
import MatrixCalc.Source.Token

/-!
# Cutting a text into tokens

At each place the longest piece is taken: a run of blanks, a comment up to the end of its line, a
word, a numeral, or a single character. `lex` gives every token with its place, and the character
at which nothing starts if there is one. Main statements: `piece?_spec`, a piece and the text behind
it are the text, and a piece is not empty, so cutting ends; `pieces_append`, the pieces cover the
text up to the place where nothing starts.
-/

namespace MatrixCalc

open Text

namespace Lexer

/-- A character that may start a name. -/
def isNameStart (c : Char) : Bool := c.isAlpha || c == '_'

/-- A character that may go on in a name. -/
def isNameRest (c : Char) : Bool := c.isAlphanum || c == '_'

/-- A character that is skipped between tokens. -/
def isSkipped (c : Char) : Bool := c == ' ' || c == '\t' || c == '\x0c' || c == '\r'

/-- The sign at the head of a text, and the rest. -/
def takeSign : List Char → List Char × List Char
  | '+' :: s => (['+'], s)
  | '-' :: s => (['-'], s)
  | s => ([], s)

/-- The exponent at the head of a text, and the rest. A mark without digits is no exponent. -/
def takeExponent : List Char → List Char × List Char
  | [] => ([], [])
  | c :: s =>
    let sign := takeSign s
    let ds := sign.2.takeWhile isDigit
    if (c = 'e' ∨ c = 'E') ∧ ds ≠ [] then (c :: sign.1 ++ ds, sign.2.dropWhile isDigit)
    else ([], c :: s)

/-- The point and the digits behind it at the head of a text, and the rest. -/
def takeFraction : List Char → List Char × List Char
  | '.' :: s => ('.' :: s.takeWhile isDigit, s.dropWhile isDigit)
  | s => ([], s)

/-- The longest numeral at the head of a text, and the rest. -/
def takeNumber? (s : List Char) : Option (List Char × List Char) :=
  let whole := s.takeWhile isDigit
  let fraction := takeFraction (s.dropWhile isDigit)
  let exponent := takeExponent fraction.2
  if whole = [] ∧ fraction.1.length ≤ 1 then none
  else some (whole ++ fraction.1 ++ exponent.1, exponent.2)

/-- The text is a numeral from its first to its last character. -/
def isNumeral (s : List Char) : Bool := takeNumber? s == some (s, [])

/-- The longest piece at the head of a text, and the rest. -/
def piece? : List Char → Option (Piece × List Char)
  | [] => none
  | c :: s =>
    if isSkipped c then some (.blank (c :: s.takeWhile isSkipped), s.dropWhile isSkipped)
    else if c = '#' then some (.comment (c :: s.takeWhile (· != '\n')), s.dropWhile (· != '\n'))
    else if isNameStart c then
      some (.token (.ofWord (c :: s.takeWhile isNameRest)), s.dropWhile isNameRest)
    else
      match takeNumber? (c :: s) with
      | some (text, rest) => some (.token (.number (String.ofList text)), rest)
      | none => (Token.ofChar? c).map fun t => (.token t, s)

theorem takeSign_append (s : List Char) : (takeSign s).1 ++ (takeSign s).2 = s := by
  unfold takeSign
  split <;> rfl

theorem takeExponent_append (s : List Char) : (takeExponent s).1 ++ (takeExponent s).2 = s := by
  unfold takeExponent
  split
  · rfl
  · rename_i c s
    dsimp only
    split
    · rw [List.append_assoc, List.takeWhile_append_dropWhile, List.cons_append, takeSign_append]
    · rfl

theorem takeFraction_append (s : List Char) : (takeFraction s).1 ++ (takeFraction s).2 = s := by
  unfold takeFraction
  split
  · rw [List.cons_append, List.takeWhile_append_dropWhile]
  · rfl

theorem takeNumber?_append {s text rest : List Char} (h : takeNumber? s = some (text, rest)) :
    text ++ rest = s := by
  unfold takeNumber? at h
  dsimp only at h
  split at h
  · cases h
  · cases h
    rw [List.append_assoc, takeExponent_append, List.append_assoc, takeFraction_append,
      List.takeWhile_append_dropWhile]

theorem takeNumber?_ne_nil {s text rest : List Char} (h : takeNumber? s = some (text, rest)) :
    text ≠ [] := by
  unfold takeNumber? at h
  dsimp only at h
  split at h
  · cases h
  · rename_i hn
    cases h
    intro he
    obtain ⟨h1, _⟩ := List.append_eq_nil_iff.1 he
    obtain ⟨h2, h3⟩ := List.append_eq_nil_iff.1 h1
    exact hn ⟨h2, by simp [h3]⟩

/-- A piece and the rest are the text, and a piece is not empty. -/
theorem piece?_spec {s rest : List Char} {p : Piece} (h : piece? s = some (p, rest)) :
    p.chars ++ rest = s ∧ p.chars ≠ [] := by
  unfold piece? at h
  split at h
  · cases h
  · rename_i c s
    split at h
    · cases h
      simp [Piece.chars, List.takeWhile_append_dropWhile]
    · split at h
      · cases h
        simp only [Piece.chars, List.cons_append, List.takeWhile_append_dropWhile]
        exact ⟨trivial, List.cons_ne_nil _ _⟩
      · split at h
        · cases h
          simp only [Piece.chars, Token.text_ofWord, List.cons_append,
            List.takeWhile_append_dropWhile]
          exact ⟨trivial, List.cons_ne_nil _ _⟩
        · split at h
          · rename_i text rest' hn
            cases h
            simp only [Piece.chars, Token.text, String.toList_ofList]
            exact ⟨takeNumber?_append hn, takeNumber?_ne_nil hn⟩
          · obtain ⟨t, ht, he⟩ := Option.map_eq_some_iff.1 h
            cases he
            simp only [Piece.chars, Token.text_ofChar? ht]
            exact ⟨rfl, List.cons_ne_nil _ _⟩

theorem piece?_lt {s rest : List Char} {p : Piece} (h : piece? s = some (p, rest)) :
    rest.length < s.length := by
  obtain ⟨h1, h2⟩ := piece?_spec h
  rw [← h1, List.length_append]
  have := List.length_pos_iff.2 h2
  omega

/-- The pieces of a text, and what is left of it where nothing starts. -/
def pieces (s : List Char) : List Piece × List Char :=
  match h : piece? s with
  | none => ([], s)
  | some (piece, rest) =>
    have := piece?_lt h
    (piece :: (pieces rest).1, (pieces rest).2)
termination_by s.length

/-- The tokens among pieces that start at the given place, each with its own place. -/
def locate (p : Position) : List Piece → List (Located Token)
  | [] => []
  | .token t :: ps => ⟨p, t⟩ :: locate (p.after (Piece.token t).chars) ps
  | .blank s :: ps => locate (p.after s) ps
  | .comment s :: ps => locate (p.after s) ps

/-- The place behind pieces that start at the given place. -/
def placeAfter (p : Position) (ps : List Piece) : Position :=
  ps.foldl (fun p piece => p.after piece.chars) p

/-- The pieces and what is left are the text. -/
theorem pieces_append (s : List Char) :
    (pieces s).1.flatMap Piece.chars ++ (pieces s).2 = s := by
  fun_induction pieces s with
  | case1 s h => rfl
  | case2 s piece rest h hlt ih =>
    rw [List.flatMap_cons, List.append_assoc, ih]
    exact (piece?_spec h).1

/-- Nothing starts where the pieces end. -/
theorem piece?_pieces (s : List Char) : piece? (pieces s).2 = none := by
  fun_induction pieces s with
  | case1 s h => exact h
  | case2 s piece rest h hlt ih => exact ih

theorem placeAfter_eq (p : Position) (ps : List Piece) :
    placeAfter p ps = p.after (ps.flatMap Piece.chars) := by
  induction ps generalizing p with
  | nil => rfl
  | cons piece ps ih =>
    rw [List.flatMap_cons, Position.after_append, ← ih]
    rfl

end Lexer

/-- A text cut into tokens: the tokens with their places, and the character behind them at which
nothing starts, if the text does not end there. -/
structure Lexed where
  tokens : List (Located Token)
  stuck : Option (Located Char)

/-- The tokens of a text. -/
def lex (s : String) : Lexed :=
  let (ps, rest) := Lexer.pieces s.toList
  ⟨Lexer.locate .start ps, rest.head?.map fun c => ⟨Lexer.placeAfter .start ps, c⟩⟩

end MatrixCalc
