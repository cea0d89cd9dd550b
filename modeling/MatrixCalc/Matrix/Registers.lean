import MatrixCalc.Matrix.Nested

/-!
# Registers of matrices

A worksheet keeps matrices in named registers. A step makes a matrix, from data or from registers,
and puts it into a register; a step that fails puts nothing there.
-/

namespace MatrixCalc

/-- Matrices by the names of their registers; of two entries with one name the first counts. -/
abbrev Registers := List (String × Matrix)

/-- How a step makes a matrix. -/
inductive Recipe where
  | empty
  | ofRow (values : List Float)
  | ofRows (rows : List (List Float))
  | ofNested (data : Nested)
  | zeros (rows cols : Int)
  | add (left right : String)
  | scale (operand : String) (factor : Float)

/-- Why a step makes no matrix. -/
inductive RecipeFault where
  /-- The data does not describe an array. -/
  | data
  /-- A shape does not fit. -/
  | shape (fault : ShapeFault)
  /-- A register holds nothing. -/
  | vacant (name : String)
deriving DecidableEq, Repr

namespace Registers

/-- The matrix in a register. -/
def fetch (rs : Registers) (name : String) : Except RecipeFault Matrix :=
  match rs.lookup name with
  | none => .error (.vacant name)
  | some m => .ok m

/-- The matrix that a recipe makes. -/
def make (rs : Registers) : Recipe → Except RecipeFault Matrix
  | .empty => .ok .empty
  | .ofRow values => .ok (.ofRow values)
  | .ofRows rows => (Matrix.ofRows rows).mapError .shape
  | .ofNested data =>
    (Matrix.ofNested data).mapError fun
      | .uneven => .data
      | .shape f => .shape f
  | .zeros rows cols =>
    match Matrix.zeros? rows cols with
    | none => .error .data
    | some m => .ok m
  | .add left right =>
    match rs.fetch left, rs.fetch right with
    | .error e, _ => .error e
    | _, .error e => .error e
    | .ok a, .ok b => (a.add b).mapError .shape
  | .scale operand factor => (rs.fetch operand).map (·.scale factor)

/-- Makes a matrix and puts it into a register. -/
def store (rs : Registers) (name : String) (r : Recipe) : Except RecipeFault Matrix × Registers :=
  match rs.make r with
  | .error e => (.error e, rs)
  | .ok m => (.ok m, (name, m) :: rs)

end Registers

end MatrixCalc
