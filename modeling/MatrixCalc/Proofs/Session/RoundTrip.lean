import MatrixCalc.Proofs.Decimal.NumeralGrammar
import MatrixCalc.Proofs.Source.Exact
import MatrixCalc.Proofs.Value.Spelling
import MatrixCalc.Session

/-!
# Values are read back from their texts

The text of a value is an expression (`Spells`), and its tree is evaluated to the value it came from,
in any store and without touching it:

1. a number's tree to the number, with its sign (`eval_numberTree`);
2. a list's tree to the list, a row of rows to the matrix (`eval_numbersTree`, `eval_rowsTree`);
3. so a session that is asked for the value of a text gives the value back, and stays as it is
   (`valueOf_render`).
-/

namespace MatrixCalc

/-! ## Evaluation -/

namespace Tree

theorem eval_numberTree {x : Float} (hx : x.isFinite = true) (s : Store) :
    (numberTree x).eval s = (.ok (.scalar x), s) := by
  have hfin := exponentField_of_isFinite hx
  have hread : Value.ofNumeral (String.ofList (magnitudeChars x)) = .ok (.scalar x.abs) :=
    Value.ofNumeral_of_mem_number (by simpa using magnitudeChars_mem_number hfin)
      (readNumeral?_magnitudeChars hfin)
  unfold numberTree
  dsimp only
  split
  · rename_i hneg
    unfold eval eval
    rw [hread]
    show (Except.ok (Value.scalar (-x.abs)), s) = _
    rw [neg_abs_eq_self hfin hneg]
  · rename_i hneg
    unfold eval
    rw [hread, abs_eq_self hfin (Bool.eq_false_iff.2 hneg)]

theorem evalAll_map {α : Type} {tree : α → Tree} {value : α → Value} {s : Store} {xs : List α}
    (h : ∀ x ∈ xs, (tree x).eval s = (.ok (value x), s)) :
    evalAll (xs.map tree) s = (.ok (xs.map value), s) := by
  induction xs with
  | nil =>
    unfold evalAll
    rfl
  | cons x xs ih =>
    rw [List.forall_mem_cons] at h
    rw [List.map_cons, evalAll, h.1]
    unfold Outcome.andThen
    dsimp only
    rw [ih h.2]
    rfl

theorem isLiteral_numberTree (x : Float) : (numberTree x).isLiteral = false := by
  unfold numberTree
  dsimp only
  split
  · rfl
  · rfl

theorem numbersTree_eq {xs : List Float} (hne : xs ≠ []) :
    numbersTree xs = .array (xs.map numberTree) := by
  unfold numbersTree ofBracket
  obtain ⟨x, xs, rfl⟩ := List.exists_cons_of_ne_nil hne
  rw [List.map_cons, List.all_cons, isLiteral_numberTree, Bool.false_and, if_neg Bool.false_ne_true]

end Tree

namespace Value

theorem scalars_map (xs : List Float) : scalars (xs.map .scalar) = .ok xs := by
  induction xs with
  | nil => rfl
  | cons x xs ih =>
    rw [List.map_cons]
    unfold scalars
    rw [ih]
    rfl

theorem ofArray_map {xs : List Float} (hne : xs ≠ []) : ofArray (xs.map .scalar) = .ok (.list xs) := by
  have hs := scalars_map xs
  obtain ⟨x, xs, rfl⟩ := List.exists_cons_of_ne_nil hne
  rw [List.map_cons] at hs ⊢
  unfold ofArray
  dsimp only
  rw [hs]
  rfl

theorem oddKind?_map_list (rows : List (List Float)) : oddKind? .list (rows.map .list) = none := by
  induction rows with
  | nil => rfl
  | cons row rows ih =>
    rw [List.map_cons]
    unfold oddKind?
    rw [show (Value.list row).kind = .list from rfl, if_pos rfl, ih]

theorem items?_map_list (rows : List (List Float)) : (rows.map Value.list).filterMap items? = rows := by
  rw [List.filterMap_map]
  exact List.filterMap_some

/-- The rows of a matrix make that matrix again. -/
theorem ofMatrix_map {m : Matrix} (hne : m.entries ≠ []) :
    ofMatrix (m.entries.map .list) = .ok (.matrix m) := by
  obtain ⟨cols, rows, hwidth⟩ := m
  obtain ⟨row, rows, rfl⟩ := List.exists_cons_of_ne_nil hne
  have hcols : row.length = cols := hwidth row List.mem_cons_self
  subst hcols
  rw [List.map_cons]
  unfold ofMatrix
  dsimp only
  rw [show (Value.list row).kind = .list from rfl, oddKind?_map_list, ← List.map_cons, items?_map_list]
  unfold ofRows Matrix.ofRows
  dsimp only
  rw [dif_pos hwidth]

end Value

namespace Tree

theorem eval_numbersTree {xs : List Float} (hne : xs ≠ []) (h : ∀ x ∈ xs, x.isFinite = true)
    (s : Store) : (numbersTree xs).eval s = (.ok (.list xs), s) := by
  rw [numbersTree_eq hne]
  unfold eval
  rw [evalAll_map fun x hx => eval_numberTree (h x hx) s]
  show (Value.ofArray (xs.map .scalar), s) = _
  rw [Value.ofArray_map hne]

theorem eval_rowsTree {m : Matrix} (hne : m.entries ≠ [])
    (h : ∀ row ∈ m.entries, row ≠ [] ∧ ∀ x ∈ row, x.isFinite = true) (s : Store) :
    (ofBracket (m.entries.map numbersTree)).eval s = (.ok (.matrix m), s) := by
  have hall : (m.entries.map numbersTree).all isLiteral = true := by
    rw [List.all_map, List.all_eq_true]
    intro row hrow
    show (numbersTree row).isLiteral = true
    rw [numbersTree_eq (h row hrow).1]
    rfl
  unfold ofBracket
  rw [if_pos hall]
  unfold eval
  rw [evalAll_map fun row hrow => eval_numbersTree (h row hrow).1 (h row hrow).2 s]
  show (Value.ofMatrix (m.entries.map .list), s) = _
  rw [Value.ofMatrix_map hne]

end Tree

/-! ## Sessions -/

/-- The value is made of finite numbers and is no text, no empty list, and no matrix that misses only
one direction. -/
def Value.IsWritable : Value → Prop
  | .scalar x => x.isFinite = true
  | .list xs => xs ≠ [] ∧ ∀ x ∈ xs, x.isFinite = true
  | .matrix m => (m.rows = 0 ∧ m.cols = 0) ∨
      (1 ≤ m.rows ∧ 1 ≤ m.cols ∧ ∀ row ∈ m.entries, ∀ x ∈ row, x.isFinite = true)
  | .text _ => False

namespace Session

theorem valueOf_of_spells {s : Session} {text : String} {t : Tree} {v : Value}
    (ht : Spells text.toList t) (hv : t.eval s.store = (.ok v, s.store)) :
    s.valueOf text = (.ok v, s) := by
  obtain ⟨w, hw, he⟩ := ht
  have hsplit := hw.splits stops_nil .nil
  rw [List.append_nil, List.append_nil] at hsplit
  have hparse : parseStatement text = .ok (.print t) :=
    parseStatement_eq_ok_iff.2 ⟨w, hsplit, .print he⟩
  unfold valueOf
  rw [hparse]
  dsimp only
  rw [hv]
  rfl

/-- **Round trip.** Asked for the value of a writable value's text, every session gives that value,
and is left as it was. -/
theorem valueOf_render (s : Session) {v : Value} (hv : v.IsWritable) :
    s.valueOf v.render = (.ok v, s) := by
  cases v with
  | scalar x => exact valueOf_of_spells (spells_number hv) (Tree.eval_numberTree hv _)
  | list xs =>
    exact valueOf_of_spells (spells_numbers hv.1 hv.2) (Tree.eval_numbersTree hv.1 hv.2 _)
  | matrix m =>
    show s.valueOf m.render = _
    unfold Matrix.render
    rcases hv with ⟨hrows, hcols⟩ | ⟨hrows, hcols, hfin⟩
    · have hempty : m = .empty := Matrix.ext hcols (List.length_eq_zero_iff.1 hrows)
      rw [hempty]
      exact valueOf_of_spells spells_empty rfl
    · have hfull : m.isDegenerate = false := by
        unfold Matrix.isDegenerate
        rw [Bool.or_eq_false_iff, beq_eq_false_iff_ne, beq_eq_false_iff_ne]
        omega
      have hne : m.entries ≠ [] := List.length_pos_iff.1 hrows
      have hentries : ∀ row ∈ m.entries, row ≠ [] ∧ ∀ x ∈ row, x.isFinite = true := by
        intro row hrow
        refine ⟨?_, hfin row hrow⟩
        rintro rfl
        rw [← m.width [] hrow] at hcols
        exact absurd hcols (by decide)
      rw [hfull, if_neg Bool.false_ne_true]
      exact valueOf_of_spells (spells_rows hne hentries) (Tree.eval_rowsTree hne hentries _)
  | text t => exact absurd hv id

/-- Signs of zero, exponents and rows are read back. -/
theorem valueOf_render_matrix :
    let v := Value.matrix ⟨2, [[-0.0, 1e-7], [-1e16, 0.5]],
      List.forall_mem_cons.2 ⟨rfl, List.forall_mem_singleton.2 rfl⟩⟩
    v.IsWritable ∧ (ofStore .empty).valueOf v.render = (.ok v, ofStore .empty) := by
  intro v
  have hv : v.IsWritable := .inr ⟨by decide, by decide, by decide⟩
  exact ⟨hv, valueOf_render _ hv⟩

end Session

end MatrixCalc
