import MatrixCalc.Matrix.Shape

/-!
# Matrices

A matrix is a list of rows that all have the stated number of columns. The number of columns is
kept apart from the rows, so that a matrix without rows still has a width. Shapes are checked by
the operations that need them, and every operation keeps the width of the rows.
-/

namespace MatrixCalc

/-- A matrix of doubles. -/
@[ext] structure Matrix where
  cols : Nat
  entries : List (List Float)
  width : ∀ row ∈ entries, row.length = cols

namespace Matrix

/-- The number of rows. -/
def rows (m : Matrix) : Nat := m.entries.length

/-- The numbers of rows and columns. -/
def shape (m : Matrix) : Nat × Nat := (m.rows, m.cols)

/-- The matrix without rows and columns. -/
def empty : Matrix := ⟨0, [], by simp⟩

/-- The matrix with one row. -/
def ofRow (values : List Float) : Matrix := ⟨values.length, [values], by simp⟩

/-- The matrix with the given rows, which have to be of one length; no rows make the empty one. -/
def ofRows (rows : List (List Float)) : Except ShapeFault Matrix :=
  match rows with
  | [] => .ok empty
  | first :: rest =>
    if h : ∀ row ∈ first :: rest, row.length = first.length then
      .ok ⟨first.length, first :: rest, h⟩
    else .error .unevenRows

/-- The matrix of zeros of the given shape. -/
def zeros (rows cols : Nat) : Matrix :=
  ⟨cols, (List.range rows).map fun _ => List.replicate cols 0.0, fun row h => by
    obtain ⟨_, _, rfl⟩ := List.mem_map.1 h
    exact List.length_replicate⟩

/-- Rows added entry by entry. -/
def addEntries (a b : List (List Float)) : List (List Float) :=
  List.zipWith (List.zipWith (· + ·)) a b

theorem length_of_mem_addEntries {n : Nat} {a b : List (List Float)}
    (ha : ∀ row ∈ a, row.length = n) (hb : ∀ row ∈ b, row.length = n) :
    ∀ row ∈ addEntries a b, row.length = n := by
  induction a generalizing b with
  | nil => intro row h; simp [addEntries] at h
  | cons x a ih =>
    cases b with
    | nil => intro row h; simp [addEntries] at h
    | cons y b =>
      intro row h
      rcases List.mem_cons.1 h with h | h
      · subst h
        rw [List.length_zipWith, ha x List.mem_cons_self, hb y List.mem_cons_self, Nat.min_self]
      · exact ih (fun r hr => ha r (List.mem_cons_of_mem _ hr))
          (fun r hr => hb r (List.mem_cons_of_mem _ hr)) row h

/-- The sum of two matrices of one shape. -/
def add (a b : Matrix) : Except ShapeFault Matrix :=
  if h : a.shape = b.shape then
    .ok ⟨a.cols, addEntries a.entries b.entries, length_of_mem_addEntries a.width
      (fun row hr => (b.width row hr).trans (Prod.ext_iff.1 h).2.symm)⟩
  else .error (.differ a.shape b.shape)

/-- Every entry multiplied by a factor. -/
def scale (m : Matrix) (factor : Float) : Matrix :=
  ⟨m.cols, m.entries.map (·.map (· * factor)), by
    intro row h
    obtain ⟨r, hr, rfl⟩ := List.mem_map.1 h
    rw [List.length_map]
    exact m.width r hr⟩

/-- Every entry multiplied by minus one. -/
def negate (m : Matrix) : Matrix := m.scale (-1.0)

/-- The matrix has no entries. -/
def isDegenerate (m : Matrix) : Bool := m.rows == 0 || m.cols == 0

/-- Two lists agree in length, and in their items as numbers do. -/
def sameNumbers : List Float → List Float → Bool
  | [], [] => true
  | x :: xs, y :: ys => x == y && sameNumbers xs ys
  | _, _ => false

/-- Two lists of rows agree entry by entry. -/
def sameEntries : List (List Float) → List (List Float) → Bool
  | [], [] => true
  | a :: as, b :: bs => sameNumbers a b && sameEntries as bs
  | _, _ => false

/-- The shapes agree, and the entries as numbers do: NaN differs from itself, and the two zeros are
equal. -/
def equal (a b : Matrix) : Bool := a.shape == b.shape && sameEntries a.entries b.entries

@[simp] theorem shape_ofRow (values : List Float) : (ofRow values).shape = (1, values.length) := rfl

@[simp] theorem shape_scale (m : Matrix) (factor : Float) : (m.scale factor).shape = m.shape := by
  simp [shape, rows, scale]

theorem shape_add {a b c : Matrix} (h : a.add b = .ok c) : c.shape = a.shape := by
  unfold add at h
  split at h
  · rename_i hs
    cases h
    have : a.entries.length = b.entries.length := (Prod.ext_iff.1 hs).1
    simp [shape, rows, addEntries, this]
  · cases h

end Matrix

end MatrixCalc
