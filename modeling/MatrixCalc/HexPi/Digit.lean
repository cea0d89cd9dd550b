import MatrixCalc.Decimal.Quotient
import MatrixCalc.HexPi.PowerMod

/-!
# Hexadecimal digits of pi

With `S j` the sum over all `k` of `1 / (16 ^ k * (8 * k + j))`, pi is
`4 * S 1 - 2 * S 4 - S 5 - S 6`. The digits from a place on are the fraction of pi times a power of
16, and the fraction of `16 ^ n * S j` needs small numbers only:

1. the left sum, over the terms with a power that is not negative, takes each power modulo its
   denominator and drops whole numbers as it goes;
2. the tail, over the other terms, goes on until a term no longer changes the sum.

`count` is the number of terms in the left sum, one more than the power of 16.
-/

namespace MatrixCalc.HexPi

/-- Numbers in which the left sum can be taken. -/
class Fractions (α : Type) where
  /-- The empty sum. -/
  zero : α
  /-- The sum of two numbers. -/
  add : α → α → α
  /-- The quotient of two integers. -/
  quotient : Int → Int → α
  /-- A number less the greatest whole number that is not above it. -/
  dropWhole : α → α

instance : Fractions Float where
  zero := 0.0
  add x y := x + y
  quotient := Binary.quotient
  dropWhole x := x - x.floor

/-- The denominator of a term. -/
def denominator (j : Int) (k : Nat) : Int := 8 * k + j

/-- One step of the left sum. -/
def leftStep {α : Type} [Fractions α] (j : Int) (count : Nat) (s : α) (k : Nat) : α :=
  let r := denominator j k
  Fractions.dropWhole (Fractions.add s (Fractions.quotient (powerMod 16 (count - 1 - k) r) r))

/-- The sum of the terms with a power that is not negative, without whole numbers. -/
def leftSum {α : Type} [Fractions α] (j : Int) (count : Nat) : α :=
  (List.range count).foldl (leftStep j count) Fractions.zero

/-- Why a term cannot be computed. -/
inductive TermFault where
  /-- A denominator is zero. -/
  | zeroDenominator
  /-- A denominator of the tail is beyond the doubles. -/
  | hugeDenominator
  /-- The steps of the tail do not suffice. -/
  | endless
deriving DecidableEq, Repr

/-- A bound on the steps of the tail: the powers of 16 vanish among doubles before it. -/
def maxTailSteps : Nat := 270

/-- The tail from the term `k` on, given the power of 16 in it and the sum so far. -/
def tailWithin (j : Int) :
    (steps : Nat) → (k : Nat) → (power sum : Float) → Except TermFault Float
  | 0, _, _, _ => .error .endless
  | steps + 1, k, power, sum =>
    let r := denominator j k
    if r = 0 then .error .zeroDenominator
    else if (Float.ofInt r).isInf then .error .hugeDenominator
    else
      let next := sum + power / Float.ofInt r
      if next == sum then .ok sum else tailWithin j steps (k + 1) (power / 16.0) next

/-- The sum of the terms with a negative power. -/
def tail (j : Int) (count : Nat) : Except TermFault Float :=
  tailWithin j maxTailSteps count (1.0 / 16.0) 0.0

/-- The fraction of `16 ^ (count - 1) * S j`, perhaps one more. -/
def term (j : Int) (count : Nat) : Except TermFault Float :=
  if (List.range count).any fun k => denominator j k = 0 then .error .zeroDenominator
  else (tail j count).map fun t => leftSum j count + t

/-- The term of an offset whose term can be computed, and zero otherwise. -/
def termD (j : Int) (count : Nat) : Float :=
  match term j count with
  | .ok x => x
  | .error _ => 0.0

/-- The hexadecimal digit of pi at a place behind the point, the whole part at place zero, and -1 at
a negative place. -/
def digit (n : Int) : Int :=
  if n < 0 then -1
  else
    let count := n.toNat
    let x := 4.0 * termD 1 count - 2.0 * termD 4 count - termD 5 count - termD 6 count
    let x := x - x.floor
    (x * 16.0).toUInt64.toNat

/-- The first digits of pi behind the point; there are none of a negative number of digits. -/
def digits? (precision : Int) : Option (List Int) :=
  if precision < 0 then none
  else some ((List.range precision.toNat).map fun (i : Nat) => digit (i + 1))

end MatrixCalc.HexPi
