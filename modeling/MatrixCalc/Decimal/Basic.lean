/-!
# Decimals

A decimal is a natural times a power of ten. Trailing zeros may move into the exponent, and a
decimal is read as the double nearest to it.
-/

namespace MatrixCalc

/-- The number `digits * 10 ^ exp`. -/
structure Decimal where
  digits : Nat
  exp : Int
deriving DecidableEq, Repr

namespace Decimal

/-- The double nearest to a decimal, a tie going to the even mantissa. -/
def toFloat (d : Decimal) : Float := Float.ofScientific d.digits (d.exp < 0) d.exp.natAbs

/-- The same number without trailing zeros among its digits. -/
def trim (d : Decimal) : Decimal :=
  if d.digits ≠ 0 ∧ d.digits % 10 = 0 then trim ⟨d.digits / 10, d.exp + 1⟩ else d
termination_by d.digits

end Decimal

end MatrixCalc
