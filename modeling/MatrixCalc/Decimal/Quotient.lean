import MatrixCalc.Decimal.Binary

/-!
# Quotients rounded to doubles

The quotient of two integers is rounded once, whatever their size: it is scaled by a power of two so
that its whole part fills the mantissa, or up to the finest scale that doubles have, and the scaled
quotient is rounded to the nearest natural. That natural and the scale are the bits of the result;
a natural that fills one bit more carries into the exponent field by itself.
-/

namespace MatrixCalc

/-- A quotient rounded to the nearest natural, a half going to the even one. -/
def roundDiv (num den : Nat) : Nat :=
  if 2 * (num % den) < den ∨ (2 * (num % den) = den ∧ num / den % 2 = 0) then num / den
  else num / den + 1

theorem roundDiv_eq_or (num den : Nat) :
    roundDiv num den = num / den ∨ roundDiv num den = num / den + 1 := by
  unfold roundDiv
  split
  · exact Or.inl rfl
  · exact Or.inr rfl

namespace Binary

/-- The power of two by which the finest doubles are scaled to naturals. -/
def finestScale : Int := 1074

/-- The bits of infinity. -/
def infinityBits : Nat := 0x7FF0000000000000

/-- The quotient times a power of two, as a quotient of naturals. -/
def scaled (num den : Nat) (s : Int) : Nat × Nat :=
  (num * Nat.pow 2 s.toNat, den * Nat.pow 2 (-s).toNat)

/-- The scale at which the quotient's whole part fills the mantissa, but no finer than doubles are:
the quotient of the leading bits tells it up to one. -/
def quotientScale (num den : Nat) : Int :=
  let s : Int := 52 + den.log2 - num.log2
  let p := scaled num den s
  min finestScale (if p.1 < hiddenBit * p.2 then s + 1 else s)

/-- The bits of the double nearest to a positive quotient. -/
def quotientBits (num den : Nat) : Nat :=
  let s := quotientScale num den
  let p := scaled num den s
  min infinityBits ((finestScale - s).toNat * hiddenBit + roundDiv p.1 p.2)

/-- The double nearest to a quotient of naturals. -/
def ofRatio (num den : Nat) : Float :=
  if num = 0 then 0.0 else Float.ofBits (quotientBits num den).toUInt64

/-- The double nearest to a quotient of integers, negative if one of them is. -/
def quotient (num den : Int) : Float :=
  if decide (num < 0) = decide (den < 0) then ofRatio num.natAbs den.natAbs
  else -ofRatio num.natAbs den.natAbs

end Binary

end MatrixCalc
