import MatrixCalc.Matrix.Registers
import MatrixCalc.Proofs.Matrix.Entries

/-!
# Worksheets of matrices

Steps put matrices into registers, and some of them fail. What they come to is foreseen from shapes
alone: whether a recipe makes a matrix, and of which shape, follows from its data and the shapes in
the registers (`shape?_of_make`), so the shapes after any steps do (`shapes_storeAll`). Registers keep
every matrix that was ever put into them, behind the later ones, and no step changes any of them
(`suffix_storeAll`); a register that no later step names holds what it held (`lookup_storeAll`).
-/

namespace MatrixCalc

/-- Shapes by the names of registers. -/
abbrev Shapes := List (String × (ℕ × ℕ))

/-- The shape of the matrix that a recipe makes, given the shapes in the registers; none if it makes
no matrix. -/
def Recipe.shape? (shapes : Shapes) : Recipe → Option (ℕ × ℕ)
  | .empty => some (0, 0)
  | .ofRow values => some (1, values.length)
  | .ofRows rows =>
    if ∀ a ∈ rows, ∀ b ∈ rows, a.length = b.length then
      some (rows.length, (rows.headD []).length)
    else none
  | .ofNested data =>
    match data.shape? with
    | some [r, c] => some (r, c)
    | _ => none
  | .zeros rows cols =>
    if 0 ≤ rows ∧ 0 ≤ cols ∧ Matrix.isAddressable rows.toNat cols.toNat then
      some (rows.toNat, cols.toNat)
    else none
  | .add left right =>
    match shapes.lookup left, shapes.lookup right with
    | some a, some b => if a = b then some a else none
    | _, _ => none
  | .scale operand _ => shapes.lookup operand

namespace Shapes

/-- The shapes in the registers after a step. -/
def store (shapes : Shapes) (name : String) (r : Recipe) : Shapes :=
  match r.shape? shapes with
  | some shape => (name, shape) :: shapes
  | none => shapes

/-- The shapes in the registers after steps. -/
def storeAll (shapes : Shapes) (steps : List (String × Recipe)) : Shapes :=
  steps.foldl (fun shapes step => shapes.store step.1 step.2) shapes

end Shapes

namespace Registers

/-- The shapes in the registers. -/
def shapes (rs : Registers) : Shapes := rs.map fun r => (r.1, r.2.shape)

/-- The registers after steps, whether they fail or not. -/
def storeAll (rs : Registers) (steps : List (String × Recipe)) : Registers :=
  steps.foldl (fun rs step => (rs.store step.1 step.2).2) rs

theorem lookup_shapes (rs : Registers) (name : String) :
    rs.shapes.lookup name = (rs.lookup name).map Matrix.shape := by
  unfold shapes
  induction rs with
  | nil => rfl
  | cons r rs ih =>
    rw [List.map_cons, List.lookup_cons, ih, show r = (r.1, r.2) from rfl, List.lookup_cons]
    cases name == r.1 <;> rfl

/-- Whether a recipe makes a matrix and of which shape follows from the shapes in the registers. -/
theorem shape?_of_make (rs : Registers) (r : Recipe) :
    (rs.make r).toOption.map Matrix.shape = r.shape? rs.shapes := by
  cases r with
  | empty => rfl
  | ofRow values => rfl
  | ofRows rows =>
    rw [make, Recipe.shape?]
    obtain ⟨heven, m, hm, -, hshape⟩ | ⟨⟨a, ha, b, hb, hne⟩, hf⟩ := Matrix.ofRows_cases rows
    · rw [hm, if_pos heven, ← hshape]
      rfl
    · rw [hf, if_neg fun heven => hne (heven a ha b hb)]
      rfl
  | ofNested data =>
    rw [make, Recipe.shape?]
    obtain ⟨r, c, m, hd, hm, hshape⟩ | ⟨hd, f, hf⟩ := Matrix.ofNested_cases data
    · rw [hm, hd]
      exact congrArg some hshape
    · rw [hf]
      split
      · exact absurd ‹_› (hd _ _)
      · rfl
  | zeros rows cols =>
    have hrefused : (rows < 0 ∨ cols < 0 ∨ ¬ Matrix.isAddressable rows.toNat cols.toNat) ↔
        ¬ (0 ≤ rows ∧ 0 ≤ cols ∧ Matrix.isAddressable rows.toNat cols.toNat) := by
      rw [not_and_or, not_and_or, Int.not_le, Int.not_le]
    rw [make, Recipe.shape?, Matrix.zeros?, if_congr hrefused rfl rfl, ite_not]
    split_ifs
    · exact congrArg some (Matrix.shape_zeros _ _)
    · rfl
  | add left right =>
    rw [make, Recipe.shape?, fetch, fetch, lookup_shapes, lookup_shapes]
    cases rs.lookup left with
    | none => rfl
    | some a =>
      cases rs.lookup right with
      | none => rfl
      | some b =>
        dsimp only [Option.map_some]
        obtain ⟨hs, c, hc, hshape, -⟩ | ⟨hs, hf⟩ := Matrix.add_cases a b
        · rw [hc, if_pos hs, ← hshape]
          rfl
        · rw [hf, if_neg hs]
          rfl
  | scale operand factor =>
    rw [make, Recipe.shape?, fetch, lookup_shapes]
    cases rs.lookup operand with
    | none => rfl
    | some m => exact congrArg some (Matrix.shape_scale m factor)

theorem shapes_store (rs : Registers) (name : String) (r : Recipe) :
    (rs.store name r).2.shapes = rs.shapes.store name r := by
  unfold store Shapes.store
  rw [← shape?_of_make]
  cases rs.make r with
  | error e => rfl
  | ok m => rfl

theorem shapes_storeAll (rs : Registers) (steps : List (String × Recipe)) :
    (rs.storeAll steps).shapes = rs.shapes.storeAll steps := by
  induction steps generalizing rs with
  | nil => rfl
  | cons step steps ih =>
    refine (ih _).trans ?_
    rw [shapes_store]
    rfl

theorem suffix_store (rs : Registers) (name : String) (r : Recipe) :
    rs <:+ (rs.store name r).2 := by
  unfold store
  cases rs.make r with
  | error e => exact List.suffix_rfl
  | ok m => exact List.suffix_cons _ _

theorem suffix_storeAll (rs : Registers) (steps : List (String × Recipe)) :
    rs <:+ rs.storeAll steps := by
  induction steps generalizing rs with
  | nil => exact List.suffix_rfl
  | cons step steps ih => exact (rs.suffix_store step.1 step.2).trans (ih _)

theorem lookup_store (rs : Registers) {name x : String} (r : Recipe) (h : x ≠ name) :
    (rs.store name r).2.lookup x = rs.lookup x := by
  unfold store
  cases rs.make r with
  | error e => rfl
  | ok m => rw [List.lookup_cons, beq_eq_false_iff_ne.2 h]

theorem lookup_storeAll (rs : Registers) {steps : List (String × Recipe)} {x : String}
    (h : x ∉ steps.map (·.1)) : (rs.storeAll steps).lookup x = rs.lookup x := by
  induction steps generalizing rs with
  | nil => rfl
  | cons step steps ih =>
    rw [List.map_cons, List.mem_cons, not_or] at h
    exact (ih _ h.2).trans (rs.lookup_store step.2 h.1)

theorem storeAll_append (rs : Registers) (before after : List (String × Recipe)) :
    rs.storeAll (before ++ after) = (rs.storeAll before).storeAll after :=
  List.foldl_append

/-- **Representation of matrices.** In registers after any steps, failing ones included:

1. the shapes are those that the recipes foresee, and every matrix that was ever put there has as many
   lists of numbers as its shape has rows, each as long as it has columns;
2. later steps leave all these matrices as they are, and the registers that they do not name;
3. rows fail to make a matrix exactly if two of them differ in length, and else they are its entries;
4. a sum fails exactly if the two shapes differ, and else has that shape and the sums of the entries;
5. a multiple has the shape of the matrix, and its entries are the multiples of the entries. -/
theorem storeAll_represents (rs : Registers) (before after : List (String × Recipe)) :
    let now := rs.storeAll before
    let later := rs.storeAll (before ++ after)
    (now.shapes = rs.shapes.storeAll before ∧
      ∀ x ∈ now, x.2.entries.map List.length = List.replicate x.2.rows x.2.cols ∧
        ∀ i j, (x.2.entryAt? i j).isSome ↔ i < x.2.rows ∧ j < x.2.cols) ∧
    (now <:+ later ∧ ∀ name, name ∉ after.map (·.1) → later.lookup name = now.lookup name) ∧
    (∀ rows, ((∃ f, Matrix.ofRows rows = .error f) ↔ ∃ a ∈ rows, ∃ b ∈ rows, a.length ≠ b.length) ∧
      ∀ m, Matrix.ofRows rows = .ok m → m.entries = rows) ∧
    (∀ a b, ((∃ f, Matrix.add a b = .error f) ↔ a.shape ≠ b.shape) ∧
      ∀ c, a.add b = .ok c → c.shape = a.shape ∧
        ∀ i j, c.entryAt? i j = Option.map₂ (· + ·) (a.entryAt? i j) (b.entryAt? i j)) ∧
    ∀ m factor, (Matrix.scale m factor).shape = m.shape ∧
      ∀ i j, (m.scale factor).entryAt? i j = (m.entryAt? i j).map (· * factor) := by
  intro now later
  have hlater : later = now.storeAll after := rs.storeAll_append before after
  refine ⟨⟨rs.shapes_storeAll before, ?_⟩, ⟨?_, ?_⟩, ?_, ?_, ?_⟩
  · exact fun x _ => ⟨x.2.lengths_entries, x.2.isSome_entryAt?_iff⟩
  · exact hlater ▸ now.suffix_storeAll after
  · exact fun name h => hlater ▸ now.lookup_storeAll h
  · exact fun rows => ⟨Matrix.ofRows_eq_error_iff rows, fun m => Matrix.entries_of_ofRows⟩
  · exact fun a b => ⟨a.add_eq_error_iff b, fun c h => ⟨Matrix.shape_add h, Matrix.entryAt?_add h⟩⟩
  · exact fun m factor => ⟨m.shape_scale factor, m.entryAt?_scale factor⟩

-- Rows without entries still count, and a sum that fails leaves its register alone.
example : (storeAll [] [("a", .ofRows [[], []]), ("b", .ofRow []), ("a", .add "a" "b")]).shapes =
    [("b", (1, 0)), ("a", (2, 0))] := by decide +kernel

end Registers

end MatrixCalc
