/-!
# The lines of a file

A line of a file ends at a line feed, at a carriage return, or at the two together, and nowhere
else. A carriage return at the very end of what has been read is held back, because a line feed may
follow. Text behind the last line end is a line too, if the file ends there.
-/

namespace MatrixCalc.Text

/-- The lines that have ended, and what has been read behind them; `line` holds, last character
first, what has been read of the current one. -/
def cutLines (line : List Char) : List Char → List (List Char) × List Char
  | [] => ([], line.reverse)
  | ['\r'] => ([], line.reverse ++ ['\r'])
  | '\r' :: '\n' :: rest => (line.reverse :: (cutLines [] rest).1, (cutLines [] rest).2)
  | c :: rest =>
    if c = '\n' ∨ c = '\r' then (line.reverse :: (cutLines [] rest).1, (cutLines [] rest).2)
    else cutLines (c :: line) rest

/-- The lines that have ended in a text that may go on. -/
def endedLines (s : String) : List String :=
  (cutLines [] s.toList).1.map String.ofList

/-- The line that ends with the file: what stands behind the last line end, without a carriage
return at its end. -/
def lastLine (s : List Char) : List (List Char) :=
  if s = [] then [] else [if s.getLast? = some '\r' then s.dropLast else s]

/-- The lines of a file, without their ends. -/
def fileLines (s : String) : List String :=
  ((cutLines [] s.toList).1 ++ lastLine (cutLines [] s.toList).2).map String.ofList

end MatrixCalc.Text
