import MatrixCalc.Decimal.Text
import MatrixCalc.Text.Join
import MatrixCalc.Value.Basic

/-!
# Texts of values

A value has three renderings: the plain one, which a print statement records; the one on a single
line, in which a text stands between quotes; and the one for inspection, over several lines and with
the kind and the shape in front.
-/

namespace MatrixCalc

open Text

/-- Numbers between brackets. -/
def numbersText (xs : List Float) : String := "[" ++ commaSeparated (xs.map numberText) ++ "]"

namespace Matrix

/-- The rows between brackets; a matrix without entries is an empty pair of brackets. -/
def render (m : Matrix) : String :=
  if m.isDegenerate then "[]" else "[" ++ commaSeparated (m.entries.map numbersText) ++ "]"

/-- The matrix as a construction from all its rows. -/
def construction (m : Matrix) : String :=
  "Matrix([" ++ commaSeparated (m.entries.map numbersText) ++ "])"

/-- The shape, and the rows on lines of their own. -/
def inspect (m : Matrix) : String :=
  let title := "matrix " ++ shapeText m.shape
  if m.isDegenerate then title ++ " []"
  else onLines ((title ++ " [") :: m.entries.map (fun row => "  " ++ numbersText row) ++ ["]"])

end Matrix

/-- Numbers on lines of their own, each behind its place counted from the given one. -/
def numberedLines (first : Nat) : List Float → List String
  | [] => []
  | x :: xs => ("  " ++ natText first ++ ": " ++ numberText x) :: numberedLines (first + 1) xs

namespace Value

/-- The plain rendering. -/
def render : Value → String
  | .scalar x => numberText x
  | .list xs => numbersText xs
  | .matrix m => m.render
  | .text s => s

/-- The rendering on a single line. -/
def inline : Value → String
  | .text s => "\"" ++ s ++ "\""
  | v => v.render

/-- The rendering for inspection. -/
def inspect : Value → String
  | .scalar x => "scalar " ++ numberText x
  | .list xs => onLines (("list (" ++ natText xs.length ++ ") [") :: numberedLines 1 xs ++ ["]"])
  | .matrix m => m.inspect
  | .text s => "string \"" ++ s ++ "\""

end Value

end MatrixCalc
