import MatrixCalc.Proofs.Eval.Proper

/-!
# Values that are no texts

A text comes only out of the store or out of a print statement. So a tree that prints nothing, evaluated
in a store that binds no text, has a value that is none, and leaves such a store (`eval_isNumeric`).

1. `Outcome.IsNumeric` goes through the steps of an evaluation (`IsNumeric.andThen`).
2. A sign keeps numbers, and no other operation makes a text (`sum_isNumeric`, `ofMatrix_isNumeric` and
   so on).
3. `Tree.induction` is induction over trees with all members of a literal at hand.
-/

namespace MatrixCalc

/-! ## Values, stores and outcomes -/

/-- The value is no text. -/
def Value.IsNumeric (v : Value) : Prop := v.kind ≠ .string

/-- No name is bound to a text. -/
def Store.IsNumeric (s : Store) : Prop := ∀ name v, s.get? name = some v → v.IsNumeric

/-- Every result has the property, and no name is bound to a text behind it. -/
def Outcome.IsNumeric {α : Type} (P : α → Prop) (o : Outcome α) : Prop :=
  Ensures o.1 P ∧ o.2.IsNumeric

theorem Store.isNumeric_empty : Store.empty.IsNumeric := by
  intro name v h
  cases h

theorem Store.IsNumeric.lookup {s : Store} (h : s.IsNumeric) (name : String) :
    Ensures (s.lookup name) Value.IsNumeric := by
  intro v hv
  unfold Store.lookup at hv
  split at hv
  · rename_i w hw
    cases hv
    exact h name v hw
  · cases hv

theorem Store.IsNumeric.assign {s : Store} (h : s.IsNumeric) (name : String) {v : Value}
    (hv : v.IsNumeric) : (s.assign name v).IsNumeric := by
  intro x w hw
  rw [get?_assign] at hw
  split at hw
  · cases hw
    exact hv
  · exact h x w hw

namespace Outcome

variable {α β : Type} {P : α → Prop} {Q : β → Prop} {o : Outcome α}

theorem IsNumeric.andThen {f : α → Store → Outcome β} (h : IsNumeric P o)
    (hf : ∀ a s, P a → s.IsNumeric → IsNumeric Q (f a s)) : IsNumeric Q (o.andThen f) := by
  obtain ⟨r, s⟩ := o
  cases r with
  | ok a => exact hf a s (h.1 a rfl) h.2
  | error e => exact ⟨ensures_error e, h.2⟩

theorem IsNumeric.apply {f : α → Except Fault β} (h : IsNumeric P o)
    (hf : ∀ a, P a → Ensures (f a) Q) : IsNumeric Q (o.apply f) :=
  h.andThen fun a _ ha hs => ⟨hf a ha, hs⟩

end Outcome

/-! ## Operations -/

namespace Value

theorem signed_isNumeric (sign : String) {v : Value} (h : v.IsNumeric) :
    Ensures (v.signed sign) IsNumeric := by
  unfold Value.signed
  split
  · cases v with
    | text s => exact ensures_error _
    | _ => exact ensures_ok nofun
  · exact ensures_ok h

theorem sum_isNumeric (v w : Value) : Ensures (v.sum w) IsNumeric := by
  unfold Value.sum
  split
  · exact ensures_ok nofun
  · split
    · exact ensures_ok nofun
    · exact ensures_error _
  · split <;> exact ensures_error _

theorem subtract_isNumeric (v w : Value) : Ensures (v.subtract w) IsNumeric := by
  unfold Value.subtract
  split
  · exact ensures_ok nofun
  · split
    · exact ensures_ok nofun
    · exact ensures_error _
  · split <;> exact ensures_error _

theorem determinant_isNumeric (v : Value) : Ensures v.determinant IsNumeric := by
  unfold Value.determinant
  split
  · split
    · exact ensures_ok nofun
    · exact ensures_error _
  · exact ensures_error _

theorem ofArray_isNumeric (vs : List Value) : Ensures (ofArray vs) IsNumeric := by
  unfold ofArray
  split
  · exact ensures_ok nofun
  · cases scalars vs with
    | ok xs => exact ensures_ok nofun
    | error f => exact ensures_error _

theorem ofMatrix_isNumeric (vs : List Value) : Ensures (ofMatrix vs) IsNumeric := by
  unfold ofMatrix ofRows
  split
  · exact ensures_ok nofun
  · split
    · exact ensures_error _
    · split
      · exact ensures_ok nofun
      · split
        · exact ensures_ok nofun
        · exact ensures_error _
      · exact ensures_error _

theorem ofNumeral_isNumeric (text : String) : Ensures (ofNumeral text) IsNumeric := by
  unfold ofNumeral
  split
  · split
    · exact ensures_ok fun h => by cases h
    · exact ensures_error _
  · exact ensures_error _

end Value

/-! ## Trees -/

namespace Tree

/-- Induction over trees, with all the members of a literal at hand. -/
@[elab_as_elim]
theorem induction {P : Tree → Prop} (number : ∀ text, P (.number text))
    (named : ∀ name, P (.variable name)) (signed : ∀ sign t, P t → P (.signed sign t))
    (group : ∀ t, P t → P (.group t)) (sum : ∀ l r, P l → P r → P (.sum l r))
    (subtract : ∀ l r, P l → P r → P (.subtract l r))
    (array : ∀ ts, (∀ t ∈ ts, P t) → P (.array ts))
    (matrix : ∀ ts, (∀ t ∈ ts, P t) → P (.matrix ts))
    (determinant : ∀ t, P t → P (.determinant t)) (assign : ∀ name t, P t → P (.assign name t))
    (print : ∀ t, P t → P (.print t)) (foreign : ∀ type, P (.foreign type)) (t : Tree) : P t :=
  @Tree.rec P (fun ts => ∀ t ∈ ts, P t) number named signed group sum subtract array matrix
    determinant assign print foreign (List.forall_mem_nil _)
    (fun _ _ ht hts => List.forall_mem_cons.2 ⟨ht, hts⟩) t

mutual
/-- A print statement stands in the tree, at its root or below. -/
def hasPrint : Tree → Bool
  | .number _ | .variable _ | .foreign _ => false
  | .signed _ t | .group t | .determinant t | .assign _ t => t.hasPrint
  | .sum l r | .subtract l r => l.hasPrint || r.hasPrint
  | .array ts | .matrix ts => anyHasPrint ts
  | .print _ => true
/-- A print statement stands in one of the trees. -/
def anyHasPrint : List Tree → Bool
  | [] => false
  | t :: ts => t.hasPrint || anyHasPrint ts
end

theorem anyHasPrint_eq_any (ts : List Tree) : anyHasPrint ts = ts.any hasPrint := by
  induction ts with
  | nil => rfl
  | cons t ts ih => rw [anyHasPrint, ih, List.any_cons]

/-- The members are evaluated from one such store to the next. -/
theorem evalAll_isNumeric {ts : List Tree} {s : Store} (hs : s.IsNumeric)
    (h : ∀ t ∈ ts, ∀ s : Store, s.IsNumeric → (t.eval s).IsNumeric Value.IsNumeric) :
    (evalAll ts s).IsNumeric fun _ => True := by
  induction ts generalizing s with
  | nil => exact ⟨fun _ _ => trivial, hs⟩
  | cons t ts ih =>
    rw [List.forall_mem_cons] at h
    exact (h.1 s hs).andThen fun _ _ _ hs => (ih hs h.2).apply fun _ _ _ _ => trivial

theorem hasPrint_of_mem {ts : List Tree} (h : anyHasPrint ts = false) :
    ∀ t ∈ ts, t.hasPrint = false := by
  rw [anyHasPrint_eq_any, List.any_eq_false] at h
  exact fun t ht => Bool.eq_false_iff.2 (h t ht)

/-- A tree that prints nothing makes no text where there was none. -/
theorem eval_isNumeric (t : Tree) {s : Store} (ht : t.hasPrint = false) (hs : s.IsNumeric) :
    (t.eval s).IsNumeric Value.IsNumeric := by
  induction t using Tree.induction generalizing s with
  | number text => exact ⟨Value.ofNumeral_isNumeric text, hs⟩
  | named name => exact ⟨hs.lookup name, hs⟩
  | signed sign t ih => exact (ih ht hs).apply fun _ => Value.signed_isNumeric sign
  | group t ih => exact ih ht hs
  | sum l r ihl ihr =>
    obtain ⟨hl, hr⟩ := Bool.or_eq_false_iff.1 ht
    exact (ihl hl hs).andThen fun v _ _ hs => (ihr hr hs).apply fun w _ => Value.sum_isNumeric v w
  | subtract l r ihl ihr =>
    obtain ⟨hl, hr⟩ := Bool.or_eq_false_iff.1 ht
    exact (ihl hl hs).andThen fun v _ _ hs =>
      (ihr hr hs).apply fun w _ => Value.subtract_isNumeric v w
  | array ts ih =>
    have hts := evalAll_isNumeric hs fun t h s hs => ih t h (hasPrint_of_mem ht t h) hs
    exact hts.apply fun vs _ => Value.ofArray_isNumeric vs
  | matrix ts ih =>
    have hts := evalAll_isNumeric hs fun t h s hs => ih t h (hasPrint_of_mem ht t h) hs
    exact hts.apply fun vs _ => Value.ofMatrix_isNumeric vs
  | determinant t ih => exact (ih ht hs).apply fun v _ => Value.determinant_isNumeric v
  | assign name t ih => exact (ih ht hs).andThen fun _ _ hv hs => ⟨ensures_ok hv, hs.assign name hv⟩
  | print t ih => cases ht
  | foreign _ => exact ⟨ensures_error _, hs⟩

end Tree

end MatrixCalc
