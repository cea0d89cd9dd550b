import Mathlib.Data.List.Basic
import Mathlib.Data.Option.NAry
import Mathlib.Tactic.Push
import MatrixCalc.Matrix.Nested

/-!
# Shapes and entries of matrices

A matrix is seen through its shape and its entries. The shape is data of its own, because entries
alone do not tell how wide a matrix without rows is. Still the two agree: there are as many lists of
numbers as rows, each as long as there are columns (`lengths_entries`), and an entry stands at every
place of the shape and at no other (`isSome_entryAt?_iff`).

For each way to make a matrix that can fail, one lemma says when it does and what it makes otherwise:
`ofRows_cases`, `ofNested_cases`, `add_cases`.
-/

namespace MatrixCalc

namespace Matrix

/-- The entry in a row and a column. -/
def entryAt? (m : Matrix) (i j : ℕ) : Option Float := m.entries[i]?.bind (·[j]?)

theorem lengths_entries (m : Matrix) : m.entries.map List.length = List.replicate m.rows m.cols :=
  List.map_eq_replicate_iff.2 m.width

theorem isSome_entryAt?_iff (m : Matrix) (i j : ℕ) :
    (m.entryAt? i j).isSome ↔ i < m.rows ∧ j < m.cols := by
  unfold entryAt?
  by_cases hi : i < m.entries.length
  · have hrow : m.entries[i].length = m.cols := m.width _ (List.getElem_mem hi)
    simp [hi, hrow, rows]
  · simp [hi, rows]

theorem shape_zeros (rows cols : ℕ) : (zeros rows cols).shape = (rows, cols) := by
  simp [shape, Matrix.rows, zeros]

/-! ## Rows -/

/-- Rows are compared with the first one only, which tells whether any two differ in length. -/
theorem ofRows_cases (rows : List (List Float)) :
    (∀ a ∈ rows, ∀ b ∈ rows, a.length = b.length) ∧
      (∃ m, ofRows rows = .ok m ∧ m.entries = rows ∧
        m.shape = (rows.length, (rows.headD []).length)) ∨
    (∃ a ∈ rows, ∃ b ∈ rows, a.length ≠ b.length) ∧ ofRows rows = .error .unevenRows := by
  cases rows with
  | nil => exact .inl ⟨by simp, empty, rfl, rfl, rfl⟩
  | cons first rest =>
    by_cases h : ∀ row ∈ first :: rest, row.length = first.length
    · refine .inl ⟨fun a ha b hb => (h a ha).trans (h b hb).symm, _, dif_pos h, rfl, rfl⟩
    · refine .inr ⟨?_, dif_neg h⟩
      push Not at h
      obtain ⟨row, hrow, hne⟩ := h
      exact ⟨row, hrow, first, List.mem_cons_self, hne⟩

theorem ofRows_eq_error_iff (rows : List (List Float)) :
    (∃ f, ofRows rows = .error f) ↔ ∃ a ∈ rows, ∃ b ∈ rows, a.length ≠ b.length := by
  obtain ⟨heven, m, hm, -⟩ | ⟨huneven, hf⟩ := ofRows_cases rows
  · rw [hm]
    refine ⟨fun ⟨f, hf⟩ => (by cases hf), ?_⟩
    rintro ⟨a, ha, b, hb, hne⟩
    exact absurd (heven a ha b hb) hne
  · exact ⟨fun _ => huneven, fun _ => ⟨_, hf⟩⟩

theorem entries_of_ofRows {rows : List (List Float)} {m : Matrix} (h : ofRows rows = .ok m) :
    m.entries = rows := by
  obtain ⟨-, n, hn, hentries, -⟩ | ⟨-, hf⟩ := ofRows_cases rows
  · cases hn.symm.trans h
    exact hentries
  · cases hf.symm.trans h

end Matrix

/-! ## Nested data -/

namespace Nested

theorem allShaped_iff {s : List ℕ} {xs : List Nested} :
    allShaped s xs = true ↔ ∀ x ∈ xs, x.shape? = some s := by
  induction xs with
  | nil => simp [allShaped]
  | cons x xs ih => rw [allShaped, Bool.and_eq_true, beq_iff_eq, ih, List.forall_mem_cons]

/-- The first length is the number of items, and the others are those of every item; only a list
without items has the length zero and no others. -/
theorem items_of_shape? {d : Nested} {n : ℕ} {s : List ℕ} (h : d.shape? = some (n :: s)) :
    d.items.length = n ∧ (∀ x ∈ d.items, x.shape? = some s) ∧ (n = 0 → s = []) := by
  cases d with
  | number x => simp [shape?] at h
  | list xs =>
    cases xs with
    | nil =>
      obtain ⟨rfl, rfl⟩ : 0 = n ∧ [] = s := by simpa [shape?] using h
      exact ⟨rfl, by simp [items], fun _ => rfl⟩
    | cons x xs =>
      rw [shape?] at h
      split at h
      · cases h
      · rename_i t ht
        split_ifs at h with hall
        cases h
        refine ⟨rfl, ?_, fun h0 => absurd h0 (Nat.succ_ne_zero _)⟩
        exact List.forall_mem_cons.2 ⟨ht, allShaped_iff.1 hall⟩

theorem isSome_number?_of_shape? {d : Nested} (h : d.shape? = some []) : d.number?.isSome := by
  cases d with
  | number x => rfl
  | list xs =>
    cases xs with
    | nil => simp [shape?] at h
    | cons x xs =>
      rw [shape?] at h
      split at h
      · cases h
      · split_ifs at h
        cases h

theorem rows_of_shape? {d : Nested} {r c : ℕ} (h : d.shape? = some [r, c]) :
    d.rows.length = r ∧ (∀ row ∈ d.rows, row.length = c) ∧ 0 < r := by
  obtain ⟨hlength, hitems, hpos⟩ := items_of_shape? h
  refine ⟨by rw [rows, List.length_map, hlength], ?_, Nat.pos_of_ne_zero fun h0 => by cases hpos h0⟩
  unfold rows
  rw [List.forall_mem_map]
  intro x hx
  obtain ⟨hwidth, hnumbers, -⟩ := items_of_shape? (hitems x hx)
  rw [← hwidth, List.filterMap_length_eq_length]
  exact fun y hy => isSome_number?_of_shape? (hnumbers y hy)

end Nested

namespace Matrix

theorem ofNested_cases (d : Nested) :
    (∃ r c m, d.shape? = some [r, c] ∧ ofNested d = .ok m ∧ m.shape = (r, c)) ∨
    (∀ r c, d.shape? ≠ some [r, c]) ∧ ∃ f, ofNested d = .error f := by
  unfold ofNested
  cases hd : d.shape? with
  | none => exact .inr ⟨by simp, _, rfl⟩
  | some s =>
    dsimp only
    split_ifs with hdeep htwo
    · refine .inr ⟨?_, _, rfl⟩
      rintro r c ⟨⟩
      simp [Nested.maxDimensions] at hdeep
    · left
      obtain ⟨r, c, rfl⟩ := List.length_eq_two.1 htwo
      obtain ⟨hlength, hwidth, hpos⟩ := Nested.rows_of_shape? hd
      obtain ⟨-, m, hm, -, hshape⟩ | ⟨⟨a, ha, b, hb, hne⟩, -⟩ := ofRows_cases d.rows
      · refine ⟨r, c, m, rfl, by rw [hm]; rfl, ?_⟩
        rw [hshape, hlength]
        cases hrows : d.rows with
        | nil => simp [hrows] at hlength; omega
        | cons first rest => rw [List.headD_cons, hwidth first (by simp [hrows])]
      · exact absurd ((hwidth a ha).trans (hwidth b hb).symm) hne
    · refine .inr ⟨?_, _, rfl⟩
      rintro r c ⟨⟩
      exact htwo rfl

/-! ## Sums and multiples -/

theorem getElem?_zipWith_eq {α β γ : Type} (f : α → β → γ) (as : List α) (bs : List β) (i : ℕ) :
    (List.zipWith f as bs)[i]? = Option.map₂ f as[i]? bs[i]? := by
  rw [List.getElem?_zipWith]
  cases as[i]? <;> cases bs[i]? <;> rfl

theorem add_cases (a b : Matrix) :
    a.shape = b.shape ∧ (∃ c, a.add b = .ok c ∧ c.shape = a.shape ∧
      ∀ i j, c.entryAt? i j = Option.map₂ (· + ·) (a.entryAt? i j) (b.entryAt? i j)) ∨
    a.shape ≠ b.shape ∧ a.add b = .error (.differ a.shape b.shape) := by
  by_cases h : a.shape = b.shape
  · refine .inl ⟨h, _, dif_pos h, shape_add (dif_pos h), ?_⟩
    intro i j
    unfold entryAt? addEntries
    dsimp only
    rw [getElem?_zipWith_eq]
    cases a.entries[i]? with
    | none => rfl
    | some row =>
      cases b.entries[i]? with
      | none => simp
      | some row' => exact getElem?_zipWith_eq _ _ _ _
  · exact .inr ⟨h, dif_neg h⟩

theorem add_eq_error_iff (a b : Matrix) : (∃ f, a.add b = .error f) ↔ a.shape ≠ b.shape := by
  obtain ⟨hs, c, hc, -⟩ | ⟨hs, hf⟩ := add_cases a b
  · rw [hc]
    exact ⟨fun ⟨f, hf⟩ => (by cases hf), fun hne => absurd hs hne⟩
  · exact ⟨fun _ => hs, fun _ => ⟨_, hf⟩⟩

theorem entryAt?_add {a b c : Matrix} (h : a.add b = .ok c) (i j : ℕ) :
    c.entryAt? i j = Option.map₂ (· + ·) (a.entryAt? i j) (b.entryAt? i j) := by
  obtain ⟨-, d, hd, -, hentry⟩ | ⟨-, hf⟩ := add_cases a b
  · cases hd.symm.trans h
    exact hentry i j
  · cases hf.symm.trans h

theorem entryAt?_scale (m : Matrix) (factor : Float) (i j : ℕ) :
    (m.scale factor).entryAt? i j = (m.entryAt? i j).map (· * factor) := by
  unfold entryAt? scale
  dsimp only
  rw [List.getElem?_map]
  cases m.entries[i]? with
  | none => rfl
  | some row => exact List.getElem?_map

end Matrix

end MatrixCalc
