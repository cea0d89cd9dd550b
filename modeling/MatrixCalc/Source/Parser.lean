import MatrixCalc.Source.Lexer
import MatrixCalc.Source.Machine
import MatrixCalc.Source.ParseError

/-!
# Parsing

`parseStatement` reads a text as one statement, `parseProgram` as statements between separators.
Both feed the tokens of the text to a machine and report the first offence.
-/

namespace MatrixCalc

namespace Parser

/-- The state behind a list of tokens, or the first token that the machine does not take. -/
def feed {σ : Type} (step : σ → Token → Option σ) :
    σ → List (Located Token) → Except (Located Token) σ
  | s, [] => .ok s
  | s, t :: ts =>
    match step s t.item with
    | none => .error t
    | some s' => feed step s' ts

/-- The place of an early end: that of the last token, or the start of a text without tokens. -/
def endPlace (ts : List (Located Token)) : Position :=
  match ts.getLast? with
  | none => .start
  | some t => t.place

/-- What a machine makes of a text that has been cut into tokens. -/
def read {σ α : Type} (step : σ → Token → Option σ) (start : σ) (finish? : σ → Option α)
    (text : Lexed) : Except ParseError α :=
  match feed step start text.tokens with
  | .error t => .error ⟨t.place, .token t.item⟩
  | .ok s =>
    match text.stuck with
    | some c => .error ⟨c.place, .character c.item⟩
    | none =>
      match finish? s with
      | some a => .ok a
      | none => .error ⟨endPlace text.tokens, .ending⟩

end Parser

/-- The statement that a text holds. -/
def parseStatement (text : String) : Except ParseError Tree :=
  Parser.read State.step .start State.finish? (lex text)

/-- The statements that a text holds, in order. -/
def parseProgram (text : String) : Except ParseError (List Tree) :=
  Parser.read ProgramState.step .start ProgramState.finish? (lex text)

end MatrixCalc
