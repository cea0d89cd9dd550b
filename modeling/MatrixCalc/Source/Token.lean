import MatrixCalc.Text.DecimalDigit

/-!
# Tokens

The words of the language: names, the keyword `det`, numerals, the signs and brackets, and the two
separators of statements. Between them stand blanks and comments, which are skipped.
-/

namespace MatrixCalc

/-- A token, with its text where that is not fixed. -/
inductive Token where
  | name (text : String)
  | det
  | number (text : String)
  | equals
  | plus
  | minus
  | comma
  | openParen
  | closeParen
  | openBracket
  | closeBracket
  | openBrace
  | closeBrace
  | semicolon
  | lineEnd
deriving DecidableEq, Repr

namespace Token

/-- The token separates statements. -/
def isSeparator : Token → Bool
  | .semicolon | .lineEnd => true
  | _ => false

/-- The source text of a token. -/
def text : Token → String
  | .name s => s
  | .det => "det"
  | .number s => s
  | .equals => "="
  | .plus => "+"
  | .minus => "-"
  | .comma => ","
  | .openParen => "("
  | .closeParen => ")"
  | .openBracket => "["
  | .closeBracket => "]"
  | .openBrace => "\x7b"
  | .closeBrace => "\x7d"
  | .semicolon => ";"
  | .lineEnd => "\n"

/-- The token that is a single character. -/
def ofChar? : Char → Option Token
  | '=' => some .equals
  | '+' => some .plus
  | '-' => some .minus
  | ',' => some .comma
  | '(' => some .openParen
  | ')' => some .closeParen
  | '[' => some .openBracket
  | ']' => some .closeBracket
  | '\x7b' => some .openBrace
  | '\x7d' => some .closeBrace
  | ';' => some .semicolon
  | '\n' => some .lineEnd
  | _ => none

/-- The token of a run of name characters: the keyword or a name. -/
def ofWord (word : List Char) : Token :=
  if word = "det".toList then .det else .name (String.ofList word)

theorem text_ofChar? {c : Char} {t : Token} (h : ofChar? c = some t) : t.text.toList = [c] := by
  unfold ofChar? at h
  split at h <;> cases h <;> rfl

theorem text_ofWord (word : List Char) : (ofWord word).text.toList = word := by
  unfold ofWord
  split
  · rename_i h
    rw [h]
    rfl
  · simp [text]

end Token

/-- A stretch of source that is taken as a whole: a token, or something that is skipped. -/
inductive Piece where
  | token (t : Token)
  | blank (s : List Char)
  | comment (s : List Char)
deriving Repr

/-- The source text of a piece. -/
def Piece.chars : Piece → List Char
  | .token t => t.text.toList
  | .blank s => s
  | .comment s => s

end MatrixCalc
