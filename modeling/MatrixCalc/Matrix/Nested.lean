import MatrixCalc.Matrix.Basic

/-!
# Matrices from nested data

Data is a number or a list of data, to any depth. Data of which all parts at one depth have one
shape is an array with that many dimensions as the depth; a matrix is built from arrays of two
dimensions only.
-/

namespace MatrixCalc

/-- A number, or a list of nested data. -/
inductive Nested where
  | number (x : Float)
  | list (items : List Nested)

namespace Nested

/-- The most dimensions that an array may have. -/
def maxDimensions : Nat := 64

mutual
/-- The lengths at each depth, if they agree at each depth. -/
def shape? : Nested → Option (List Nat)
  | .number _ => some []
  | .list [] => some [0]
  | .list (x :: xs) =>
    match shape? x with
    | none => none
    | some s => if allShaped s xs then some ((xs.length + 1) :: s) else none
/-- All the data has the given shape. -/
def allShaped (s : List Nat) : List Nested → Bool
  | [] => true
  | x :: xs => shape? x == some s && allShaped s xs
end

/-- The items of a list. -/
def items : Nested → List Nested
  | .number _ => []
  | .list xs => xs

/-- The number that stands alone. -/
def number? : Nested → Option Float
  | .number x => some x
  | .list _ => none

/-- The rows of an array of two dimensions. -/
def rows (d : Nested) : List (List Float) := d.items.map fun row => row.items.filterMap number?

end Nested

/-- Why nested data is no matrix. -/
inductive NestedFault where
  /-- The data is no array: its parts differ in shape, or it is too deep. -/
  | uneven
  /-- The data has the wrong shape for a matrix. -/
  | shape (fault : ShapeFault)
deriving DecidableEq, Repr

/-- The matrix of nested data. -/
def Matrix.ofNested (d : Nested) : Except NestedFault Matrix :=
  match d.shape? with
  | none => .error .uneven
  | some s =>
    if Nested.maxDimensions < s.length then .error .uneven
    else if s.length = 2 then (Matrix.ofRows d.rows).mapError .shape
    else .error (.shape (.dimensions s.length))

/-- The numbers of an array fit the address space, in bytes, where a length of zero counts as one. -/
def Matrix.isAddressable (rows cols : Nat) : Bool :=
  max rows 1 * max cols 1 * 8 < 0x8000000000000000

/-- The matrix of zeros of the given shape, refusing lengths that are negative or too large. -/
def Matrix.zeros? (rows cols : Int) : Option Matrix :=
  if rows < 0 ∨ cols < 0 ∨ ¬ Matrix.isAddressable rows.toNat cols.toNat then none
  else some (Matrix.zeros rows.toNat cols.toNat)

end MatrixCalc
