import MatrixCalc.Matrix.Determinant

/-!
# Values

A value is a scalar, a list of scalars, a matrix or a text. What an operation does with a value, and
whether it takes it at all, goes by its kind.
-/

namespace MatrixCalc

/-- The kind of a value. -/
inductive Kind where
  | scalar
  | list
  | matrix
  | string
deriving DecidableEq, Repr

/-- The name of a kind. -/
def Kind.text : Kind → String
  | .scalar => "scalar"
  | .list => "list"
  | .matrix => "matrix"
  | .string => "string"

/-- A value. -/
inductive Value where
  | scalar (x : Float)
  | list (items : List Float)
  | matrix (m : Matrix)
  | text (s : String)

namespace Value

/-- The kind of a value. -/
def kind : Value → Kind
  | .scalar _ => .scalar
  | .list _ => .list
  | .matrix _ => .matrix
  | .text _ => .string

/-- Two values agree in kind and content, where numbers agree as numbers: NaN differs from itself,
and the two zeros are equal. -/
def equal : Value → Value → Bool
  | .scalar x, .scalar y => x == y
  | .list xs, .list ys => Matrix.sameNumbers xs ys
  | .matrix a, .matrix b => a.equal b
  | .text s, .text t => s == t
  | _, _ => false

/-- A value was taken for one of another kind. -/
structure Mistaken where
  expected : Kind
  found : Kind
deriving DecidableEq, Repr

/-- The message of a mistaken kind. -/
def Mistaken.message (m : Mistaken) : String :=
  "not a " ++ m.expected.text ++ ": got " ++ m.found.text

/-- The number of a scalar. -/
def asScalar : Value → Except Mistaken Float
  | .scalar x => .ok x
  | v => .error ⟨.scalar, v.kind⟩

/-- The matrix of a matrix value. -/
def asMatrix : Value → Except Mistaken Matrix
  | .matrix m => .ok m
  | v => .error ⟨.matrix, v.kind⟩

end Value

end MatrixCalc
