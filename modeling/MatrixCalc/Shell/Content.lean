import MatrixCalc.Text.Lines
import MatrixCalc.Text.Utf8

/-!
# The content of a file

A file holds a text, or bytes that stop being one. Since files are read in blocks, the lines that
ended in the blocks before the failure can still be read.
-/

namespace MatrixCalc

open Text

/-- What a file holds. -/
inductive Content where
  /-- A text. -/
  | text (s : String)
  /-- Bytes that stop being a text behind the given lines. -/
  | broken (lines : List String)
deriving DecidableEq, Repr

namespace Content

/-- The number of bytes that are read at once. -/
def blockSize : Nat := 8192

/-- The bytes of a file in blocks. -/
def blocks (bytes : ByteArray) : List ByteArray :=
  (List.range ((bytes.size + blockSize - 1) / blockSize)).map fun i =>
    bytes.extract (blockSize * i) (blockSize * (i + 1))

/-- Reads blocks, given the text before them and the bytes that wait for the first of them. -/
def ofBlocks (before : String) (waiting : ByteArray) : List ByteArray → Content
  | [] => if waiting.isEmpty then .text before else .broken (endedLines before)
  | block :: blocks =>
    match decodeBlock? (waiting ++ block) with
    | none => .broken (endedLines before)
    | some (s, rest) => ofBlocks (before ++ s) rest blocks

/-- The content of a file's bytes, read as UTF-8. -/
def ofBytes (bytes : ByteArray) : Content := ofBlocks "" .empty (blocks bytes)

/-- The lines that can be read. -/
def lines : Content → List String
  | .text s => fileLines s
  | .broken lines => lines

end Content

end MatrixCalc
