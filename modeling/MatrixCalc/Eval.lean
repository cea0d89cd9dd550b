import MatrixCalc.Decimal.Numeral
import MatrixCalc.Source.Lexer
import MatrixCalc.Source.Tree
import MatrixCalc.Store
import MatrixCalc.Value.Arithmetic
import MatrixCalc.Value.Render

/-!
# Evaluation

A tree is evaluated from left to right against a store. The store comes back also when evaluation
fails, because assignments that came before the failure stay. An assignment is made only once its
right-hand side has a value.
-/

namespace MatrixCalc

/-- The scalar of a number's text. The reader of numbers also takes signs and words, so the text is first
checked to be a numeral. -/
def Value.ofNumeral (text : String) : Except Fault Value :=
  if Lexer.isNumeral text.toList then
    match readNumber? text with
    | some x => .ok (.scalar x)
    | none => .error (.malformedNumber text)
  else .error (.malformedNumber text)

/-- What evaluation gives, a result or a fault, and the store behind it. -/
abbrev Outcome (α : Type) := Except Fault α × Store

namespace Outcome

/-- Goes on with a result, in the store behind it. -/
def andThen {α β : Type} (o : Outcome α) (f : α → Store → Outcome β) : Outcome β :=
  match o with
  | (.ok a, s) => f a s
  | (.error e, s) => (.error e, s)

/-- Applies an operation that does not touch the store. -/
def apply {α β : Type} (o : Outcome α) (f : α → Except Fault β) : Outcome β :=
  o.andThen fun a s => (f a, s)

end Outcome

namespace Tree

mutual
/-- The value of a tree, and the store behind its evaluation. -/
def eval : Tree → Store → Outcome Value
  | .number text, s => (Value.ofNumeral text, s)
  | .variable name, s => (s.lookup name, s)
  | .signed sign t, s => (eval t s).apply (Value.signed sign)
  | .group t, s => eval t s
  | .sum l r, s => (eval l s).andThen fun a s => (eval r s).apply (Value.sum a)
  | .subtract l r, s => (eval l s).andThen fun a s => (eval r s).apply (Value.subtract a)
  | .array ts, s => (evalAll ts s).apply Value.ofArray
  | .matrix ts, s => (evalAll ts s).apply Value.ofMatrix
  | .determinant t, s => (eval t s).apply Value.determinant
  | .assign name t, s => (eval t s).andThen fun v s => (.ok v, s.assign name v)
  | .print t, s => (eval t s).apply fun v => .ok (.text v.render)
  | .foreign type, s => (.error (.foreignTree type), s)
/-- The values of trees in order. -/
def evalAll : List Tree → Store → Outcome (List Value)
  | [], s => (.ok [], s)
  | t :: ts, s => (eval t s).andThen fun v s => (evalAll ts s).apply fun vs => .ok (v :: vs)
end

end Tree

end MatrixCalc
