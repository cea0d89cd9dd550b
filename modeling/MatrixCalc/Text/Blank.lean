import MatrixCalc.Text.CharRange

/-!
# Blank characters around a line

The shell trims each line by the white space of the whole character set: the separators, the
ASCII controls that move the cursor, and the four information separators U+001C to U+001F.
Inside a line other rules hold: only four characters are skipped between tokens.
-/

namespace MatrixCalc.Text

/-- The blank characters. The zero-width space and the byte order mark are not blank. -/
def blankRanges : List (Nat × Nat) :=
  [(0x09, 0x0D), (0x1C, 0x20), (0x85, 0x85), (0xA0, 0xA0), (0x1680, 0x1680), (0x2000, 0x200A),
   (0x2028, 0x2029), (0x202F, 0x202F), (0x205F, 0x205F), (0x3000, 0x3000)]

/-- The character is trimmed at the ends of a line. -/
def isBlank (c : Char) : Bool := inRanges blankRanges c

example : isBlank '\u200b' = false ∧ isBlank '\ufeff' = false := by decide

/-- The characters of a line without the blanks at its two ends. -/
def stripChars (s : List Char) : List Char :=
  ((s.dropWhile isBlank).reverse.dropWhile isBlank).reverse

/-- The line without the blanks at its two ends. -/
def strip (s : String) : String := String.ofList (stripChars s.toList)

@[simp] theorem toList_strip (s : String) : (strip s).toList = stripChars s.toList := by
  simp [strip]

end MatrixCalc.Text
