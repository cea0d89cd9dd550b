/-!
# Powers modulo a number

The remainder of a power is computed by squaring, from the lowest bit of the exponent up.
-/

namespace MatrixCalc.HexPi

/-- `result * base ^ b` modulo `m`. -/
def powerLoop (m : Nat) (result base b : Nat) : Nat :=
  if b = 0 then result
  else powerLoop m (if b % 2 = 1 then result * base % m else result) (base * base % m) (b / 2)
termination_by b

/-- `a ^ b` modulo `m`, or -1 if the base or the exponent is negative or the modulus is not
positive. -/
def powerMod (a b m : Int) : Int :=
  if a < 0 ∨ b < 0 ∨ m ≤ 0 then -1
  else if m = 1 then 0
  else powerLoop m.toNat 1 (a.toNat % m.toNat) b.toNat

end MatrixCalc.HexPi
