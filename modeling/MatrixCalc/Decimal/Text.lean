import MatrixCalc.Decimal.Digits
import MatrixCalc.Decimal.Shortest

/-!
# The text of a number

A number is written with the fewest digits that identify it. From `10 ^ -4` up to below `10 ^ 16`
it is written positionally, with at least one digit behind the point; outside, with a signed
exponent of at least two digits and no point behind a single digit. Zero keeps its sign.
-/

namespace MatrixCalc

namespace Decimal

/-- The least exponent of the leading digit that is written positionally. -/
def positionalFrom : Int := -4

/-- The first exponent of the leading digit that is no longer written positionally. -/
def positionalBelow : Int := 16

/-- The exponent of the leading digit. -/
def leadingExp (d : Decimal) : Int := d.exp + (natChars d.digits).length - 1

/-- The exponent behind its mark: a sign and at least two digits. -/
def expChars (e : Int) : List Char :=
  let ds := natChars e.natAbs
  (if e < 0 then '-' else '+') :: List.replicate (2 - ds.length) '0' ++ ds

/-- A positive decimal without trailing zeros, laid out. -/
def layout (d : Decimal) : List Char :=
  let ds := natChars d.digits
  let e := d.leadingExp
  if positionalFrom ≤ e ∧ e < positionalBelow then
    if 0 ≤ d.exp then ds ++ List.replicate d.exp.toNat '0' ++ ['.', '0']
    else if 0 ≤ e then ds.take (e + 1).toNat ++ '.' :: ds.drop (e + 1).toNat
    else '0' :: '.' :: List.replicate (-e - 1).toNat '0' ++ ds
  else
    match ds with
    | [] => []
    | [c] => c :: 'e' :: expChars e
    | c :: rest => c :: '.' :: rest ++ 'e' :: expChars e

end Decimal

/-- The text of the magnitude of a number that is no NaN. -/
def magnitudeChars (x : Float) : List Char :=
  if Binary.exponentField x = 2047 then "inf".toList
  else if (Binary.ofFloat x).mantissa = 0 then "0.0".toList
  else (Decimal.shortest x.abs).layout

/-- The characters of a number's text. -/
def numberChars (x : Float) : List Char :=
  if x.isNaN then "nan".toList
  else if Binary.isNegative x then '-' :: magnitudeChars x
  else magnitudeChars x

/-- The text of a number. -/
def numberText (x : Float) : String := String.ofList (numberChars x)

end MatrixCalc
