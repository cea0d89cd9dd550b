import MatrixCalc.Text.Blank

/-!
# Commands of the shell

A line of the shell is trimmed and read as a command; a line that is no command is a program.
-/

namespace MatrixCalc

open Text

/-- What a line asks for. -/
inductive Command where
  /-- Nothing: the line is blank or a comment. -/
  | skip
  /-- To end the session. -/
  | quit
  /-- To list the variables. -/
  | variables
  /-- To forget variables and results. -/
  | reset
  /-- To run the lines of a file. -/
  | runFile (path : String)
  /-- To show a value over several lines. -/
  | inspect (text : String)
  /-- To show a value on a single line. -/
  | display (text : String)
  /-- To run statements. -/
  | statements (text : String)
deriving DecidableEq, Repr

namespace Command

/-- What stands between an opening word and the parenthesis that ends the line. -/
def enclosed? (opening s : List Char) : Option (List Char) :=
  match opening.isPrefixOf? s with
  | none => none
  | some r => if r.getLast? = some ')' then some r.dropLast else none

/-- The command of a line that has been trimmed. -/
def ofTrimmed (s : List Char) : Command :=
  if s = [] ∨ s.head? = some '#' then .skip
  else if s = ":q".toList ∨ s = ":quit".toList then .quit
  else if s = ":vars".toList then .variables
  else if s = ":reset".toList then .reset
  else
    match "?<< ".toList.isPrefixOf? s with
    | some path => .runFile (String.ofList (stripChars path))
    | none =>
      match enclosed? "inspect(".toList s <|> enclosed? "i(".toList s with
      | some text => .inspect (String.ofList (stripChars text))
      | none =>
        match "? ".toList.isPrefixOf? s with
        | some text => .display (String.ofList (stripChars text))
        | none => .statements (String.ofList s)

/-- The command of a line. -/
def ofLine (line : String) : Command := ofTrimmed (stripChars line.toList)

end Command

end MatrixCalc
