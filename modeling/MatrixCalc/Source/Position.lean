/-!
# Positions in a text

Lines and columns count from one, in characters. Only a line feed starts a new line.
-/

namespace MatrixCalc

/-- A place in a text. -/
structure Position where
  line : Nat
  column : Nat
deriving DecidableEq, Repr

namespace Position

/-- The place of the first character. -/
def start : Position := ⟨1, 1⟩

/-- The place behind a character that stands here. -/
def next (p : Position) (c : Char) : Position :=
  if c = '\n' then ⟨p.line + 1, 1⟩ else ⟨p.line, p.column + 1⟩

/-- The place behind a text that stands here. -/
def after (p : Position) (s : List Char) : Position := s.foldl next p

@[simp] theorem after_nil (p : Position) : p.after [] = p := rfl

@[simp] theorem after_cons (p : Position) (c : Char) (s : List Char) :
    p.after (c :: s) = (p.next c).after s := rfl

theorem after_append (p : Position) (s t : List Char) : p.after (s ++ t) = (p.after s).after t := by
  simp [after]

theorem after_line (p : Position) (s : List Char) :
    (p.after s).line = p.line + s.count '\n' := by
  induction s generalizing p with
  | nil => simp
  | cons c s ih =>
    rw [after_cons, ih, List.count_cons]
    unfold next
    by_cases h : c = '\n'
    · subst h
      simp
      omega
    · have : ¬ (c == '\n') = true := by simpa using h
      simp [h]

end Position

/-- Something together with the place where it starts. -/
structure Located (α : Type) where
  place : Position
  item : α
deriving Repr

end MatrixCalc
