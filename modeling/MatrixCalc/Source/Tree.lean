/-!
# Syntax trees

One type holds expressions and statements, because evaluation takes any nesting of them. The parser
builds a statement over expressions only; other trees come from programs that build them.
-/

namespace MatrixCalc

/-- A syntax tree. -/
inductive Tree where
  /-- A numeral, by its text. -/
  | number (text : String)
  /-- A variable. -/
  | variable (name : String)
  /-- An operand behind a sign; `-` negates, any other sign does nothing. -/
  | signed (sign : String) (operand : Tree)
  /-- An expression in parentheses. -/
  | group (inner : Tree)
  /-- A sum. -/
  | sum (left right : Tree)
  /-- A difference. -/
  | subtract (left right : Tree)
  /-- A list of scalars, written with brackets. -/
  | array (members : List Tree)
  /-- A matrix, by its entries or by its rows. -/
  | matrix (members : List Tree)
  /-- A determinant. -/
  | determinant (operand : Tree)
  /-- An assignment. -/
  | assign (name : String) (value : Tree)
  /-- A printed expression. -/
  | print (value : Tree)
  /-- Something that is no syntax and has no value, by the name of its type. -/
  | foreign (type : String)
deriving Repr

namespace Tree

/-- The tree is written with brackets or braces. -/
def isLiteral : Tree → Bool
  | .array _ | .matrix _ => true
  | _ => false

/-- The tree prints its value. -/
def isPrint : Tree → Bool
  | .print _ => true
  | _ => false

/-- The tree of members in brackets: literals are the rows of a matrix, other members make a list. -/
def ofBracket (members : List Tree) : Tree :=
  if members.all isLiteral then .matrix members else .array members

end Tree

end MatrixCalc
