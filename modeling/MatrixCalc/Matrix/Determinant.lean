import MatrixCalc.Matrix.Basic

/-!
# Determinants

A determinant is computed by elimination with partial pivoting:

1. the pivot of a column is the first of its entries that are largest in magnitude, and its row
   changes places with the first one; NaN is a pivot only in a column of nothing else;
2. a pivot of zero makes the determinant zero;
3. otherwise the determinant is the exponential of the sum of the logarithms of the pivots'
   magnitudes, negative if the row changes and the negative pivots are odd in number together.
-/

namespace MatrixCalc

namespace Determinant

/-- The magnitude `x` is a better pivot than `y`: every number is better than NaN, and of two
numbers the larger one. -/
def isBetter (x y : Float) : Bool := if y.isNaN then !x.isNaN else x > y

/-- The index of the first item that is largest in magnitude; `best` stands at `place`, and the
list begins at index `i`. -/
def largestFrom (best : Float) (place i : Nat) : List Float → Nat
  | [] => place
  | x :: xs =>
    if isBetter x.abs best then largestFrom x.abs i (i + 1) xs
    else largestFrom best place (i + 1) xs

/-- The index of the first item that is largest in magnitude, NaN being less than every number. -/
def largestIndex : List Float → Nat
  | [] => 0
  | x :: xs => largestFrom x.abs 0 1 xs

/-- The first item of a row. -/
def head (row : List Float) : Float := row.headD 0.0

/-- The pivot's row, the other rows once it has changed places with the first, and whether it
moved. -/
def pivotRow (first : List Float) (rest : List (List Float)) :
    List Float × List (List Float) × Bool :=
  match largestIndex (head first :: rest.map head) with
  | 0 => (first, rest, false)
  | i + 1 => (rest.getD i [], rest.set i first, true)

/-- A row less the multiple of the pivot's row that clears its first entry, without that entry. -/
def clear (pivot : List Float) (row : List Float) : List Float :=
  let factor := head row / head pivot
  List.zipWith (fun x u => x - factor * u) row.tail pivot.tail

/-- The pivots of `n` rows from the first column on, and whether an odd number of rows changed
places; nothing if a pivot is zero. -/
def pivots? : Nat → List (List Float) → Option (List Float × Bool)
  | 0, _ => some ([], false)
  | _ + 1, [] => some ([], false)
  | n + 1, first :: rest =>
    let (pivot, others, moved) := pivotRow first rest
    if head pivot == 0.0 then none
    else
      (pivots? n (others.map (clear pivot))).map fun (ps, odd) => (head pivot :: ps, moved ^^ odd)

/-- The product of the pivots, through the logarithms of their magnitudes. -/
def product (ps : List Float) (odd : Bool) : Float :=
  let negative := ps.foldl (fun b p => b ^^ decide (p < 0.0)) odd
  let logarithm := ps.foldl (fun s p => s + p.abs.log) 0.0
  (if negative then -1.0 else 1.0) * logarithm.exp

end Determinant

/-- The determinant of a square matrix. -/
def Matrix.determinant (m : Matrix) : Except ShapeFault Float :=
  if m.rows = m.cols then
    match Determinant.pivots? m.rows m.entries with
    | none => .ok 0.0
    | some (ps, odd) => .ok (Determinant.product ps odd)
  else .error (.notSquare m.shape)

end MatrixCalc
