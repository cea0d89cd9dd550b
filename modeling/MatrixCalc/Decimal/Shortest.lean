import MatrixCalc.Decimal.Basic
import MatrixCalc.Decimal.Quotient

/-!
# The shortest decimal of a double

A positive finite double is written with the fewest digits that read back to it:

1. decode the bits into `mantissa * 2 ^ exponent`;
2. find the power of ten just above the value;
3. for one digit, two digits and so on, take the two neighbours of the value among the decimals
   of that length, and stop at the first length at which one of them reads back; of two that read
   back the nearer is taken, and of two equally near ones the even one.

Seventeen digits always suffice for a double; the search ends there, and the exact value stands
behind it.
-/

namespace MatrixCalc

namespace Binary

/-- The magnitude over `10 ^ g`, as a quotient of naturals. -/
def ratio (b : Binary) (g : Int) : Nat × Nat :=
  (b.mantissa * Nat.pow 2 b.exponent.toNat * Nat.pow 10 (-g).toNat,
    Nat.pow 2 (-b.exponent).toNat * Nat.pow 10 g.toNat)

/-- The magnitude is below `10 ^ k`. -/
def isBelow (b : Binary) (k : Int) : Bool := (b.ratio k).1 < (b.ratio k).2

/-- The power of ten just above the magnitude: the least of the candidates around the
logarithm's estimate. -/
def scale (b : Binary) : Int :=
  let guess := (b.mantissa.log2 + b.exponent) * 30103 / 100000
  (([0, 1, 2, 3].map fun i => guess + i).find? b.isBelow).getD (guess + 4)

/-- The magnitude as a decimal, with all its digits. -/
def exact (b : Binary) : Decimal :=
  if 0 ≤ b.exponent then ⟨b.mantissa * Nat.pow 2 b.exponent.toNat, 0⟩
  else ⟨b.mantissa * Nat.pow 5 b.exponent.natAbs, b.exponent⟩

end Binary

namespace Decimal

/-- The decimal reads back to the double. -/
def readsBack (x : Float) (d : Decimal) : Bool := d.toFloat.toBits == x.toBits

/-- Among the multiples of `10 ^ g`, the neighbour of the magnitude that reads back, if any. -/
def neighbour? (x : Float) (b : Binary) (g : Int) : Option Decimal :=
  let (num, den) := b.ratio g
  let low : Decimal := ⟨num / den, g⟩
  let high : Decimal := ⟨num / den + 1, g⟩
  match readsBack x low, readsBack x high with
  | true, true => some ⟨roundDiv num den, g⟩
  | true, false => some low
  | false, true => some high
  | false, false => none

/-- The most digits that a double needs. -/
def maxDigits : Nat := 17

/-- The shortest decimal that reads back to a positive finite double. -/
def shortest (x : Float) : Decimal :=
  let b := Binary.ofFloat x
  let k := b.scale
  (((List.range maxDigits).findSome? fun (n : Nat) => neighbour? x b (k - (n + 1))).getD b.exact).trim

theorem neighbour?_readsBack {x : Float} {b : Binary} {g : Int} {d : Decimal}
    (h : neighbour? x b g = some d) : readsBack x d = true := by
  unfold neighbour? at h
  dsimp only at h
  split at h
  · rename_i hl hh
    cases h
    rcases roundDiv_eq_or (b.ratio g).1 (b.ratio g).2 with hq | hq
    · rw [hq]
      exact hl
    · rw [hq]
      exact hh
  · rename_i hl _
    cases h
    exact hl
  · rename_i _ hh
    cases h
    exact hh
  · cases h

end Decimal

end MatrixCalc
