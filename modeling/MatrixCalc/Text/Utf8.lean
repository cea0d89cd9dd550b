/-!
# Decoding bytes block by block

A file is read in blocks of bytes. A block may end inside a character; the bytes of the unfinished
character wait for the next block. Bytes that no text in UTF-8 has make the whole block unreadable.
-/

namespace MatrixCalc.Text

/-- The byte may stand behind the first byte of a character. -/
def isContinuation (b : UInt8) : Bool := 0x80 ≤ b && b ≤ 0xBF

/-- The byte may be the second of a character of three bytes. A surrogate's second byte is let
through: the third one gives it away. -/
def isSecondOfThree (a b : UInt8) : Bool :=
  0xE0 ≤ a && a ≤ 0xEF && isContinuation b && (a != 0xE0 || 0xA0 ≤ b)

/-- The byte may be the second of a character of four bytes. -/
def isSecondOfFour (a b : UInt8) : Bool :=
  0xF0 ≤ a && a ≤ 0xF4 && isContinuation b && (a != 0xF0 || 0x90 ≤ b) && (a != 0xF4 || b ≤ 0x8F)

/-- The bytes are a character that goes on. -/
def isUnfinished : List UInt8 → Bool
  | [a] => 0xC2 ≤ a && a ≤ 0xF4
  | [a, b] => isSecondOfThree a b || isSecondOfFour a b
  | [a, b, c] => isSecondOfFour a b && isContinuation c
  | _ => false

/-- The text of a block, and the bytes of an unfinished character at its end. -/
def decodeBlock? (bytes : ByteArray) : Option (String × ByteArray) :=
  [0, 1, 2, 3].findSome? fun n =>
    let front := bytes.extract 0 (bytes.size - n)
    let rest := bytes.extract (bytes.size - n) bytes.size
    if rest.isEmpty || isUnfinished rest.toList then
      (String.fromUTF8? front).map fun s => (s, rest)
    else none

end MatrixCalc.Text
