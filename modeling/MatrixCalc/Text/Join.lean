/-!
# Joining and padding texts
-/

namespace MatrixCalc.Text

/-- The texts in order, with a comma and a space between neighbours. -/
def commaSeparated : List String → String
  | [] => ""
  | [s] => s
  | s :: t :: rest => s ++ ", " ++ commaSeparated (t :: rest)

/-- The texts in order, each on a line of its own, the last line without an end. -/
def onLines : List String → String
  | [] => ""
  | [s] => s
  | s :: t :: rest => s ++ "\n" ++ onLines (t :: rest)

/-- The texts in order, nothing between them. -/
def concat : List String → String
  | [] => ""
  | s :: rest => s ++ concat rest

/-- The text with spaces behind it up to the given width. -/
def padRight (width : Nat) (s : String) : String :=
  s ++ String.ofList (List.replicate (width - s.length) ' ')

@[simp] theorem commaSeparated_singleton (s : String) : commaSeparated [s] = s := rfl

theorem commaSeparated_cons_cons (s t : String) (rest : List String) :
    commaSeparated (s :: t :: rest) = s ++ ", " ++ commaSeparated (t :: rest) := rfl

end MatrixCalc.Text
