import MatrixCalc.Text.Join
import MatrixCalc.Value.Basic

/-!
# Faults of evaluation

Why a tree has no value, as causes. The wording of all of them stands in `Fault.message`.
-/

namespace MatrixCalc

open Text

/-- An operation that refuses some values. -/
inductive Operation where
  | sum
  | subtract
  | determinant
  | negate
deriving DecidableEq, Repr

/-- The name of an operation in messages. -/
def Operation.text : Operation → String
  | .sum => "SUM"
  | .subtract => "SUBTRACT"
  | .determinant => "DET"
  | .negate => "NEGATE"

/-- Why a tree has no value. -/
inductive Fault where
  /-- The text of a number is no numeral. -/
  | malformedNumber (text : String)
  /-- A variable is not in the store. -/
  | undefinedVariable (name : String)
  /-- Two operands are of different kinds. -/
  | kindsDiffer (op : Operation) (left right : Kind)
  /-- The shapes of matrices do not fit. -/
  | shape (op : Operation) (fault : ShapeFault)
  /-- The operation is not defined for the kind. -/
  | unsupported (op : Operation) (kind : Kind)
  /-- A list has a member that is no scalar. -/
  | listMember (kind : Kind)
  /-- The members of a matrix differ in kind. -/
  | mixedMembers (expected found : Kind)
  /-- The rows of a matrix differ in length. -/
  | raggedRows (lengths : List Nat)
  /-- A matrix has members that are neither scalars nor lists. -/
  | matrixMember (kind : Kind)
  /-- A determinant was asked of something else than a matrix. -/
  | notAMatrix (kind : Kind)
  /-- The tree is no syntax but of some other type. -/
  | foreignTree (type : String)
deriving DecidableEq, Repr

/-- The message of a fault. -/
def Fault.message : Fault → String
  | .malformedNumber text => "Invalid number format '" ++ text ++ "'"
  | .undefinedVariable name => "Variable '" ++ name ++ "' is undefined"
  | .kindsDiffer op l r =>
    op.text ++ " cannot be applied to operands of type " ++ l.text ++ " and " ++ r.text
  | .shape op f => op.text ++ " cannot be applied: " ++ f.message
  | .unsupported op k => op.text ++ " is not defined for operands of type " ++ k.text
  | .listMember k => "Array can only contain scalars, found " ++ k.text
  | .mixedMembers e f =>
    "Matrix definition includes non-identical members: " ++ e.text ++ " and " ++ f.text
  | .raggedRows lengths =>
    "Matrix definition includes lists with different length: " ++
      commaSeparated (lengths.map natText)
  | .matrixMember k => "Matrix definition includes unauthorized types: " ++ k.text
  | .notAMatrix k => "Cannot calculate determinant of not a matrix member: " ++ k.text
  | .foreignTree type => "Cannot evaluate node of type " ++ type

end MatrixCalc
