import MatrixCalc.Decimal.Digits

/-!
# Faults of shape

An operation on matrices can fail only by the shapes of its operands.
-/

namespace MatrixCalc

/-- Why a matrix cannot be built or an operation on matrices cannot be done. -/
inductive ShapeFault where
  /-- The data has another number of dimensions than two. -/
  | dimensions (count : Nat)
  /-- Two rows differ in length. -/
  | unevenRows
  /-- The two operands, as rows and columns, differ in shape. -/
  | differ (left right : Nat × Nat)
  /-- The operand is not square. -/
  | notSquare (shape : Nat × Nat)
deriving DecidableEq, Repr

/-- Rows and columns, as in `2x3`. -/
def shapeText (shape : Nat × Nat) : String := natText shape.1 ++ "x" ++ natText shape.2

/-- The message of a fault of shape. -/
def ShapeFault.message : ShapeFault → String
  | .dimensions n => "Matrix must be two-dimensional, got " ++ natText n ++ " dimension(s)"
  | .unevenRows => "Matrix rows must all have the same length"
  | .differ l r => "Matrix dimensions " ++ shapeText l ++ " and " ++ shapeText r ++ " do not match"
  | .notSquare s => "Determinant requires a square matrix, got " ++ shapeText s

end MatrixCalc
