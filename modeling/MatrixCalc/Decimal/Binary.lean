/-!
# Doubles as binary numbers

The bits of a finite double are a sign and a magnitude, a natural times a power of two.
-/

namespace MatrixCalc

/-- A finite magnitude, `mantissa * 2 ^ exponent`. -/
structure Binary where
  mantissa : Nat
  exponent : Int

namespace Binary

/-- The bit above the fraction field, two to the power 52. -/
def hiddenBit : Nat := 0x10000000000000

/-- The sign bit of a double. -/
def isNegative (x : Float) : Bool := 0x8000000000000000 ≤ x.toBits.toNat

/-- The exponent field of a double. -/
def exponentField (x : Float) : Nat := x.toBits.toNat / hiddenBit % 0x800

/-- The fraction field of a double. -/
def fractionField (x : Float) : Nat := x.toBits.toNat % hiddenBit

/-- The magnitude of a finite double. -/
def ofFloat (x : Float) : Binary :=
  if exponentField x = 0 then ⟨fractionField x, -1074⟩
  else ⟨hiddenBit + fractionField x, (exponentField x : Int) - 1075⟩

end Binary

end MatrixCalc
