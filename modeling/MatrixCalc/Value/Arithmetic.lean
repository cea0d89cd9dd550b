import MatrixCalc.Fault

/-!
# Operations on values

The operations that trees stand for, each on values alone. The order of the checks decides which
fault is named: kinds before shapes, and members in their order.
-/

namespace MatrixCalc

namespace Value

/-- The value with its sign flipped. -/
def negate : Value → Except Fault Value
  | .scalar x => .ok (.scalar (-x))
  | .list xs => .ok (.list (xs.map fun x => -x))
  | .matrix m => .ok (.matrix m.negate)
  | .text _ => .error (.unsupported .negate .string)

/-- The value behind a sign. -/
def signed (sign : String) (v : Value) : Except Fault Value :=
  if sign = "-" then v.negate else .ok v

/-- The sum of two values of one kind. -/
def sum : Value → Value → Except Fault Value
  | .scalar x, .scalar y => .ok (.scalar (x + y))
  | .matrix a, .matrix b =>
    match a.add b with
    | .ok c => .ok (.matrix c)
    | .error f => .error (.shape .sum f)
  | v, w =>
    if v.kind = w.kind then .error (.unsupported .sum v.kind)
    else .error (.kindsDiffer .sum v.kind w.kind)

/-- The difference of two values of one kind; a matrix is subtracted by adding its negative. -/
def subtract : Value → Value → Except Fault Value
  | .scalar x, .scalar y => .ok (.scalar (x - y))
  | .matrix a, .matrix b =>
    match a.add b.negate with
    | .ok c => .ok (.matrix c)
    | .error f => .error (.shape .subtract f)
  | v, w =>
    if v.kind = w.kind then .error (.unsupported .subtract v.kind)
    else .error (.kindsDiffer .subtract v.kind w.kind)

/-- The determinant of a matrix. -/
def determinant : Value → Except Fault Value
  | .matrix m =>
    match m.determinant with
    | .ok x => .ok (.scalar x)
    | .error f => .error (.shape .determinant f)
  | v => .error (.notAMatrix v.kind)

/-- The numbers of members that are all scalars. -/
def scalars : List Value → Except Fault (List Float)
  | [] => .ok []
  | .scalar x :: vs => (scalars vs).map (x :: ·)
  | v :: _ => .error (.listMember v.kind)

/-- The list of members that are all scalars; without members it is the empty matrix. -/
def ofArray : List Value → Except Fault Value
  | [] => .ok (.matrix .empty)
  | vs => (scalars vs).map .list

/-- The first kind among the members that differs from the expected one. -/
def oddKind? (expected : Kind) : List Value → Option Kind
  | [] => none
  | v :: vs => if v.kind = expected then oddKind? expected vs else some v.kind

/-- The number of a scalar, for members that are all scalars. -/
def number? : Value → Option Float
  | .scalar x => some x
  | _ => none

/-- The items of a list, for members that are all lists. -/
def items? : Value → Option (List Float)
  | .list xs => some xs
  | _ => none

/-- The matrix whose rows are lists of one length. -/
def ofRows (rows : List (List Float)) : Except Fault Value :=
  match Matrix.ofRows rows with
  | .ok m => .ok (.matrix m)
  | .error _ => .error (.raggedRows (rows.map List.length))

/-- The matrix of its entries or of its rows; without members it is the empty matrix. -/
def ofMatrix : List Value → Except Fault Value
  | [] => .ok (.matrix .empty)
  | v :: vs =>
    match oddKind? v.kind vs with
    | some found => .error (.mixedMembers v.kind found)
    | none =>
      match v.kind with
      | .scalar => .ok (.matrix (.ofRow ((v :: vs).filterMap number?)))
      | .list => ofRows ((v :: vs).filterMap items?)
      | k => .error (.matrixMember k)

end Value

end MatrixCalc
