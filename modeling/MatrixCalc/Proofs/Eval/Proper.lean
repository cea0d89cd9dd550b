import MatrixCalc.Eval
import MatrixCalc.Proofs.Source.WellFormed

/-!
# Proper values

A value is proper if it is a scalar, a list with items, or a matrix that is either empty in both
directions or in neither. Expressions of source texts have proper values in a store of proper values
(`eval_proper`), and statements keep such a store (`eval_isStatement`): a printed text is a value
only of a whole statement, and is never bound.
-/

namespace MatrixCalc

/-! ## Values and stores -/

/-- The matrix has no rows and no columns, or some of both. -/
def Matrix.IsProper (m : Matrix) : Prop := (m.rows = 0 ∧ m.cols = 0) ∨ (1 ≤ m.rows ∧ 1 ≤ m.cols)

/-- The value is a scalar, a list with items, or a matrix without a missing direction. -/
def Value.IsProper : Value → Prop
  | .scalar _ => True
  | .list xs => xs ≠ []
  | .matrix m => m.IsProper
  | .text _ => False

/-- Every name is an identifier, and every value is proper. -/
def Store.IsProper (s : Store) : Prop := ∀ b ∈ s.bindings, IsIdentifier b.1 ∧ b.2.IsProper

/-- Every result has the property. -/
def Ensures {ε α : Type} (r : Except ε α) (P : α → Prop) : Prop := ∀ a, r = .ok a → P a

/-- Every result has the property, and the store behind it is proper. -/
def Outcome.IsProper {α : Type} (P : α → Prop) (o : Outcome α) : Prop :=
  Ensures o.1 P ∧ o.2.IsProper

theorem ensures_ok {ε α : Type} {P : α → Prop} {a : α} (h : P a) :
    Ensures (.ok a : Except ε α) P := by
  intro b hb
  cases hb
  exact h

theorem ensures_error {ε α : Type} {P : α → Prop} (e : ε) : Ensures (.error e : Except ε α) P := by
  intro b hb
  cases hb

theorem Matrix.IsProper.of_shape_eq {m n : Matrix} (hm : m.IsProper) (h : n.shape = m.shape) :
    n.IsProper := by
  obtain ⟨hrows, hcols⟩ : n.rows = m.rows ∧ n.cols = m.cols := Prod.ext_iff.1 h
  unfold Matrix.IsProper
  rw [hrows, hcols]
  exact hm

namespace Outcome

theorem IsProper.andThen {α β : Type} {P : α → Prop} {Q : β → Prop} {o : Outcome α}
    {f : α → Store → Outcome β} (h : IsProper P o)
    (hf : ∀ a s, P a → s.IsProper → IsProper Q (f a s)) : IsProper Q (o.andThen f) := by
  obtain ⟨r, s⟩ := o
  cases r with
  | ok a => exact hf a s (h.1 a rfl) h.2
  | error e => exact ⟨ensures_error e, h.2⟩

theorem IsProper.apply {α β : Type} {P : α → Prop} {Q : β → Prop} {o : Outcome α}
    {f : α → Except Fault β} (h : IsProper P o) (hf : ∀ a, P a → Ensures (f a) Q) :
    IsProper Q (o.apply f) :=
  h.andThen fun a _ ha hs => ⟨hf a ha, hs⟩

end Outcome

theorem mem_bindIn {bs : List (String × Value)} {name : String} {v : Value} {b : String × Value}
    (h : b ∈ bindIn name v bs) : b = (name, v) ∨ b ∈ bs := by
  induction bs with
  | nil => exact .inl (List.mem_singleton.1 h)
  | cons c bs ih =>
    unfold bindIn at h
    split at h
    · rcases List.mem_cons.1 h with h | h
      · exact .inl h
      · exact .inr (List.mem_cons_of_mem _ h)
    · rcases List.mem_cons.1 h with h | h
      · exact .inr (h ▸ List.mem_cons_self)
      · rcases ih h with h | h
        · exact .inl h
        · exact .inr (List.mem_cons_of_mem _ h)

namespace Store

theorem isProper_empty : empty.IsProper := by
  intro b hb
  cases hb

theorem IsProper.lookup {s : Store} (h : s.IsProper) (name : String) :
    Ensures (s.lookup name) Value.IsProper := by
  intro v hv
  unfold Store.lookup at hv
  split at hv
  · rename_i w hw
    cases hv
    obtain ⟨l₁, l₂, hl, -⟩ := List.lookup_eq_some_iff.1 hw
    refine (h (name, v) ?_).2
    rw [hl]
    exact List.mem_append_right _ List.mem_cons_self
  · cases hv

theorem IsProper.assign {s : Store} (h : s.IsProper) {name : String} {v : Value}
    (hn : IsIdentifier name) (hv : v.IsProper) : (s.assign name v).IsProper := by
  intro b hb
  rcases mem_bindIn hb with rfl | hb
  · exact ⟨hn, hv⟩
  · exact h b hb

end Store

/-! ## Operations -/

namespace Value

theorem negate_proper {v : Value} (h : v.IsProper) : Ensures v.negate IsProper := by
  cases v with
  | scalar x => exact ensures_ok trivial
  | list xs => exact ensures_ok (fun hc => h (List.map_eq_nil_iff.1 hc))
  | matrix m => exact ensures_ok (Matrix.IsProper.of_shape_eq h (Matrix.shape_scale m _))
  | text s => exact ensures_error _

theorem signed_proper (sign : String) {v : Value} (h : v.IsProper) :
    Ensures (v.signed sign) IsProper := by
  unfold Value.signed
  split
  · exact negate_proper h
  · exact ensures_ok h

theorem sum_proper {v : Value} (h : v.IsProper) (w : Value) : Ensures (v.sum w) IsProper := by
  unfold Value.sum
  split
  · exact ensures_ok trivial
  · split
    · rename_i c hc
      exact ensures_ok (Matrix.IsProper.of_shape_eq h (Matrix.shape_add hc))
    · exact ensures_error _
  · split <;> exact ensures_error _

theorem subtract_proper {v : Value} (h : v.IsProper) (w : Value) :
    Ensures (v.subtract w) IsProper := by
  unfold Value.subtract
  split
  · exact ensures_ok trivial
  · split
    · rename_i c hc
      exact ensures_ok (Matrix.IsProper.of_shape_eq h (Matrix.shape_add hc))
    · exact ensures_error _
  · split <;> exact ensures_error _

theorem determinant_proper (v : Value) : Ensures v.determinant IsProper := by
  unfold Value.determinant
  split
  · split
    · exact ensures_ok trivial
    · exact ensures_error _
  · exact ensures_error _

theorem length_scalars {vs : List Value} {xs : List Float} (h : scalars vs = .ok xs) :
    xs.length = vs.length := by
  induction vs generalizing xs with
  | nil =>
    cases h
    rfl
  | cons v vs ih =>
    unfold scalars at h
    split at h
    · rename_i heq
      cases heq
    · rename_i x us heq
      cases heq
      cases hs : scalars vs with
      | error e =>
        rw [hs] at h
        cases h
      | ok ys =>
        rw [hs] at h
        cases h
        rw [List.length_cons, List.length_cons, ih hs]
    · cases h

theorem ofArray_proper (vs : List Value) : Ensures (ofArray vs) IsProper := by
  cases vs with
  | nil => exact ensures_ok (.inl ⟨rfl, rfl⟩)
  | cons v vs =>
    intro w hw
    cases hs : scalars (v :: vs) with
    | error e =>
      unfold ofArray at hw
      dsimp only at hw
      rw [hs] at hw
      cases hw
    | ok xs =>
      unfold ofArray at hw
      dsimp only at hw
      rw [hs] at hw
      cases hw
      have hl := length_scalars hs
      intro hc
      rw [hc] at hl
      cases hl

/-- Rows of which the first is not empty make a proper matrix. -/
theorem ofRows_proper {row : List Float} (rows : List (List Float)) (h : row ≠ []) :
    Ensures (ofRows (row :: rows)) IsProper := by
  intro w hw
  unfold Value.ofRows Matrix.ofRows at hw
  dsimp only at hw
  split at hw
  · rename_i m hm
    cases hw
    split at hm
    · cases hm
      refine .inr ⟨?_, List.length_pos_iff.2 h⟩
      exact Nat.le_add_left 1 rows.length
    · cases hm
  · cases hw

theorem ofMatrix_proper {vs : List Value} (h : ∀ v ∈ vs, v.IsProper) :
    Ensures (ofMatrix vs) IsProper := by
  cases vs with
  | nil => exact ensures_ok (.inl ⟨rfl, rfl⟩)
  | cons v vs =>
    have hv := h v List.mem_cons_self
    unfold ofMatrix
    dsimp only
    split
    · exact ensures_error _
    · cases v with
      | scalar x =>
        refine ensures_ok (.inr ⟨le_rfl, ?_⟩)
        exact Nat.le_add_left 1 (vs.filterMap number?).length
      | list xs => exact ofRows_proper _ hv
      | matrix m => exact ensures_error _
      | text s => exact ensures_error _

end Value

/-! ## Trees -/

namespace Tree

mutual
theorem eval_proper : ∀ (t : Tree) {s : Store}, t.IsExpression → s.IsProper →
    Outcome.IsProper Value.IsProper (t.eval s)
  | .number text, s, _, hs => by
    refine ⟨?_, hs⟩
    unfold eval Value.ofNumeral
    dsimp only
    split
    · split
      · exact ensures_ok trivial
      · exact ensures_error _
    · exact ensures_error _
  | .variable name, _, _, hs => ⟨hs.lookup name, hs⟩
  | .signed sign t, _, ht, hs => (eval_proper t ht.2.1 hs).apply fun _ => Value.signed_proper sign
  | .group t, _, ht, hs => eval_proper t ht hs
  | .sum l r, _, ht, hs => (eval_proper l ht.1 hs).andThen fun _ _ hv hs =>
      (eval_proper r ht.2.1 hs).apply fun w _ => Value.sum_proper hv w
  | .subtract l r, _, ht, hs => (eval_proper l ht.1 hs).andThen fun _ _ hv hs =>
      (eval_proper r ht.2.1 hs).apply fun w _ => Value.subtract_proper hv w
  | .array ts, _, ht, hs => (evalAll_proper ts ht.1 hs).apply fun vs _ => Value.ofArray_proper vs
  | .matrix ts, _, ht, hs => (evalAll_proper ts ht hs).apply fun _ => Value.ofMatrix_proper
  | .determinant t, _, ht, hs => (eval_proper t ht hs).apply fun v _ => Value.determinant_proper v
theorem evalAll_proper : ∀ (ts : List Tree) {s : Store}, AreExpressions ts → s.IsProper →
    Outcome.IsProper (fun vs => ∀ v ∈ vs, v.IsProper) (evalAll ts s)
  | [], _, _, hs => by
    refine ⟨ensures_ok ?_, hs⟩
    intro v hv
    cases hv
  | t :: ts, _, ht, hs => (eval_proper t ht.1 hs).andThen fun _ _ hv hs =>
      (evalAll_proper ts ht.2 hs).apply fun _ hvs => ensures_ok (List.forall_mem_cons.2 ⟨hv, hvs⟩)
end

/-- A statement of a source text keeps a store of proper values. -/
theorem eval_isStatement {t : Tree} {s : Store} (ht : t.IsStatement) (hs : s.IsProper) :
    (t.eval s).2.IsProper := by
  cases t with
  | assign name e =>
    have h := eval_proper e ht.2 hs
    unfold eval
    exact (h.andThen (Q := fun _ => True) fun v _ hv hs =>
      ⟨ensures_ok trivial, hs.assign ht.1 hv⟩).2
  | print e =>
    have h := eval_proper e ht hs
    unfold eval
    exact (h.apply (Q := fun _ => True) fun _ _ => ensures_ok trivial).2
  | _ => exact ht.elim

end Tree

end MatrixCalc
