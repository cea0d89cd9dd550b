import MatrixCalc.Decimal.Digits
import MatrixCalc.Source.Position
import MatrixCalc.Source.Token
import MatrixCalc.Text.Quoted

/-!
# Parse errors

A text is refused for its first offence: a token that cannot stand where it does, a character at
which no token starts, or an end that comes too early. The message names the place of the offence;
an early end has the place of the last token.
-/

namespace MatrixCalc

/-- A message with the place that it speaks of, as far as it is known. -/
structure Report where
  wording : String
  line : Option Int
  column : Option Int

/-- A number that may be missing. -/
def optionText : Option Int → String
  | none => "None"
  | some i => intText i

/-- The message with its place in front, if the line is known. -/
def Report.message (r : Report) : String :=
  match r.line with
  | none => r.wording
  | some line =>
    "line " ++ intText line ++ ", column " ++ optionText r.column ++ ": " ++ r.wording

/-- Why a text is refused. -/
inductive Offence where
  | token (t : Token)
  | character (c : Char)
  | ending
deriving DecidableEq, Repr

/-- The wording of an offence. -/
def Offence.wording : Offence → String
  | .token t => "unexpected token " ++ Text.quoted t.text
  | .character c => "unexpected character " ++ Text.quoted (String.singleton c)
  | .ending => "unexpected end of input"

/-- An offence and its place. -/
structure ParseError where
  place : Position
  offence : Offence
deriving DecidableEq, Repr

namespace ParseError

/-- The report of a parse error. -/
def report (e : ParseError) : Report :=
  ⟨e.offence.wording, some e.place.line, some e.place.column⟩

/-- The message of a parse error. -/
def message (e : ParseError) : String := e.report.message

end ParseError

end MatrixCalc
