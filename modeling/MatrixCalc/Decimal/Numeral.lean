import MatrixCalc.Text.DecimalDigit
import MatrixCalc.Decimal.Basic

/-!
# Reading numerals

A numeral is a run of digits with at most one point in it, before, between or behind digits but not
alone, and then perhaps an exponent: the letter `e` of either case, perhaps a sign, and digits. The
digits may be of any script. A numeral is cut at its marks and the parts are checked; its value is
rounded once.
-/

namespace MatrixCalc

open Text

/-- The parts of a numeral: digits before and behind the point, and the exponent. -/
structure Numeral where
  whole : List Char
  fraction : List Char
  exp : Int

namespace Numeral

/-- The text before the first character of a class, and the text behind it if there is one. -/
def cut (mark : Char → Bool) : List Char → List Char × Option (List Char)
  | [] => ([], none)
  | c :: s => if mark c then ([], some s) else ((c :: (cut mark s).1), (cut mark s).2)

/-- The value of a run of digits, refusing the empty run and any other character. -/
def digits? (s : List Char) : Option Nat :=
  if s ≠ [] ∧ s.all isDigit then some (digitsValue s) else none

/-- The value of what stands behind the exponent mark. -/
def exponent? : List Char → Option Int
  | '+' :: s => (digits? s).map Int.ofNat
  | '-' :: s => (digits? s).map fun n => -(n : Int)
  | s => (digits? s).map Int.ofNat

/-- The digits on the two sides of the point; without a point, all stand before it. -/
def mantissa? (s : List Char) : Option (List Char × List Char) :=
  match cut (· == '.') s with
  | (whole, none) => if whole ≠ [] ∧ whole.all isDigit then some (whole, []) else none
  | (whole, some fraction) =>
    if (whole ≠ [] ∨ fraction ≠ []) ∧ whole.all isDigit ∧ fraction.all isDigit then
      some (whole, fraction)
    else none

/-- The parts of a text that is a numeral from its first to its last character. -/
def ofChars? (s : List Char) : Option Numeral :=
  match cut (fun c => c == 'e' || c == 'E') s with
  | (m, none) => (mantissa? m).map fun p => ⟨p.1, p.2, 0⟩
  | (m, some e) =>
    match mantissa? m, exponent? e with
    | some p, some n => some ⟨p.1, p.2, n⟩
    | _, _ => none

/-- The decimal that a numeral writes. -/
def toDecimal (n : Numeral) : Decimal :=
  ⟨digitsValue (n.whole ++ n.fraction), n.exp - n.fraction.length⟩

end Numeral

/-- The number that a numeral writes. -/
def readNumeral? (s : String) : Option Float :=
  (Numeral.ofChars? s.toList).map fun n => n.toDecimal.toFloat

/-- Reads a number's text: a numeral or one of the special values, perhaps behind a sign. -/
def readNumber? (s : String) : Option Float :=
  match s.toList with
  | '-' :: r => (magnitude? r).map fun x => -x
  | '+' :: r => magnitude? r
  | r => magnitude? r
where
  /-- A number's text without a sign. -/
  magnitude? (r : List Char) : Option Float :=
    if r = "nan".toList then some (0.0 / 0.0)
    else if r = "inf".toList then some (1.0 / 0.0)
    else readNumeral? (String.ofList r)

end MatrixCalc
