import MatrixCalc.Proofs.Decimal.NumeralGrammar
import MatrixCalc.Proofs.Eval.Coercion
import MatrixCalc.Proofs.Eval.Effects
import MatrixCalc.Proofs.Source.Exact

/-!
# The faults of source texts

Statements of a source text have a value, or they fail for the kinds and shapes of values or for a
variable that is not bound (`evalAll_of_parseProgram`). No numeral of a text is malformed, no tree of
a text is foreign, and no coercion fails without a fault.

1. `Fault.IsOfOperation` names the faults that operations on values have; each operation has no other
   (`negate_fails`, `sum_fails`, `ofMatrix_fails` and so on).
2. An expression of a text fails in an operation, or at one of its variables (`eval_fails`). It leaves
   the store alone, so the variable is not bound in the store that the statement started from.
3. Statements in order fail at the first of them that fails (`exists_of_evalAll_error`).
-/

namespace MatrixCalc

/-- The fault is one of an operation on values: of kinds, shapes, members or rows. -/
def Fault.IsOfOperation : Fault → Prop
  | .kindsDiffer _ _ _ | .shape _ _ | .unsupported _ _ | .listMember _ | .mixedMembers _ _
  | .raggedRows _ | .matrixMember _ | .notAMatrix _ => True
  | .malformedNumber _ | .undefinedVariable _ | .foreignTree _ => False

/-- Every failure has the property. -/
def FailsOnly {ε α : Type} (r : Except ε α) (P : ε → Prop) : Prop := ∀ e, r = .error e → P e

theorem failsOnly_ok {ε α : Type} {P : ε → Prop} (a : α) : FailsOnly (.ok a : Except ε α) P := by
  intro e he
  cases he

theorem failsOnly_error {ε α : Type} {P : ε → Prop} {e : ε} (h : P e) :
    FailsOnly (.error e : Except ε α) P := by
  intro e' he
  cases he
  exact h

theorem FailsOnly.map {ε α β : Type} {P : ε → Prop} {r : Except ε α} (h : FailsOnly r P)
    (f : α → β) : FailsOnly (r.map f) P := by
  cases r with
  | ok a => exact failsOnly_ok (f a)
  | error e => exact failsOnly_error (h e rfl)

/-! ## Operations -/

namespace Value

theorem negate_fails (v : Value) : FailsOnly v.negate Fault.IsOfOperation := by
  cases v with
  | text s => exact failsOnly_error trivial
  | _ => exact failsOnly_ok _

theorem signed_fails (sign : String) (v : Value) :
    FailsOnly (v.signed sign) Fault.IsOfOperation := by
  unfold Value.signed
  split
  · exact negate_fails v
  · exact failsOnly_ok v

theorem sum_fails (v w : Value) : FailsOnly (v.sum w) Fault.IsOfOperation := by
  unfold Value.sum
  split
  · exact failsOnly_ok _
  · split
    · exact failsOnly_ok _
    · exact failsOnly_error trivial
  · split <;> exact failsOnly_error trivial

theorem subtract_fails (v w : Value) : FailsOnly (v.subtract w) Fault.IsOfOperation := by
  unfold Value.subtract
  split
  · exact failsOnly_ok _
  · split
    · exact failsOnly_ok _
    · exact failsOnly_error trivial
  · split <;> exact failsOnly_error trivial

theorem determinant_fails (v : Value) : FailsOnly v.determinant Fault.IsOfOperation := by
  unfold Value.determinant
  split
  · split
    · exact failsOnly_ok _
    · exact failsOnly_error trivial
  · exact failsOnly_error trivial

theorem scalars_fails (vs : List Value) : FailsOnly (scalars vs) Fault.IsOfOperation := by
  induction vs with
  | nil => exact failsOnly_ok []
  | cons v vs ih =>
    cases v with
    | scalar x => exact ih.map (x :: ·)
    | _ => exact failsOnly_error trivial

theorem ofArray_fails (vs : List Value) : FailsOnly (ofArray vs) Fault.IsOfOperation := by
  cases vs with
  | nil => exact failsOnly_ok _
  | cons v vs => exact (scalars_fails (v :: vs)).map Value.list

theorem ofRows_fails (rows : List (List Float)) : FailsOnly (ofRows rows) Fault.IsOfOperation := by
  unfold ofRows
  split
  · exact failsOnly_ok _
  · exact failsOnly_error trivial

theorem ofMatrix_fails (vs : List Value) : FailsOnly (ofMatrix vs) Fault.IsOfOperation := by
  cases vs with
  | nil => exact failsOnly_ok _
  | cons v vs =>
    unfold ofMatrix
    dsimp only
    split
    · exact failsOnly_error trivial
    · split
      · exact failsOnly_ok _
      · exact ofRows_fails _
      · exact failsOnly_error trivial

end Value

namespace Outcome

/-- The store is left alone, and every fault has the property. -/
def FailsIn {α : Type} (s : Store) (P : Fault → Prop) (o : Outcome α) : Prop :=
  o.2 = s ∧ FailsOnly o.1 P

variable {α β : Type} {s : Store} {P Q : Fault → Prop} {o : Outcome α}

theorem FailsIn.mono (h : FailsIn s P o) (hPQ : ∀ f, P f → Q f) : FailsIn s Q o :=
  ⟨h.1, fun f hf => hPQ f (h.2 f hf)⟩

theorem FailsIn.andThen {f : α → Store → Outcome β} (h : FailsIn s P o)
    (hf : ∀ a, FailsIn s P (f a s)) : FailsIn s P (o.andThen f) := by
  obtain ⟨r, s'⟩ := o
  obtain ⟨rfl, hr⟩ := h
  cases r with
  | ok a => exact hf a
  | error e => exact ⟨rfl, failsOnly_error (hr e rfl)⟩

theorem FailsIn.apply {f : α → Except Fault β} (h : FailsIn s P o)
    (hf : ∀ a, FailsOnly (f a) P) : FailsIn s P (o.apply f) :=
  h.andThen fun a => ⟨rfl, hf a⟩

end Outcome

/-! ## Trees -/

namespace Tree

mutual
/-- The variables that the tree reads. -/
def reads : Tree → List String
  | .number _ | .foreign _ => []
  | .variable name => [name]
  | .signed _ t | .group t | .determinant t | .print t | .assign _ t => t.reads
  | .sum l r | .subtract l r => l.reads ++ r.reads
  | .array ts | .matrix ts => readsAll ts
/-- The variables that the trees read. -/
def readsAll : List Tree → List String
  | [] => []
  | t :: ts => t.reads ++ readsAll ts
end

/-- The fault is one of an operation, or of one of the names, which is not bound. -/
def Explains (names : List String) (s : Store) (f : Fault) : Prop :=
  f.IsOfOperation ∨ ∃ x, f = .undefinedVariable x ∧ x ∈ names ∧ s.get? x = none

theorem explains_of_subset {xs ys : List String} (hxy : xs ⊆ ys) (s : Store) (f : Fault)
    (h : Explains xs s f) : Explains ys s f := by
  rcases h with h | ⟨x, hf, hx, hs⟩
  · exact .inl h
  · exact .inr ⟨x, hf, hxy hx, hs⟩

/-- An operation on the result adds faults of operations only. -/
theorem explains_apply {α β : Type} {xs : List String} {s : Store} {o : Outcome α}
    {f : α → Except Fault β} (h : o.FailsIn s (Explains xs s))
    (hf : ∀ a, FailsOnly (f a) Fault.IsOfOperation) : (o.apply f).FailsIn s (Explains xs s) :=
  h.apply fun a e he => .inl (hf a e he)

theorem lookup_fails (s : Store) (name : String) :
    FailsOnly (s.lookup name) (Explains [name] s) := by
  unfold Store.lookup
  cases h : s.get? name with
  | some v => exact failsOnly_ok v
  | none => exact failsOnly_error (.inr ⟨name, rfl, List.mem_singleton_self name, h⟩)

theorem ofNumeral_fails {text : String} (h : text.toList ∈ Terminal.number) (P : Fault → Prop) :
    FailsOnly (Value.ofNumeral text) P := by
  obtain ⟨x, hx⟩ := readNumeral?_of_mem_number h
  rw [Value.ofNumeral_of_mem_number h hx]
  exact failsOnly_ok _

mutual
theorem eval_fails : ∀ (t : Tree) (s : Store), t.IsExpression →
    (t.eval s).FailsIn s (Explains t.reads s)
  | .number _, _, h => ⟨rfl, ofNumeral_fails h _⟩
  | .variable name, s, _ => ⟨rfl, lookup_fails s name⟩
  | .signed sign t, s, h => explains_apply (eval_fails t s h.2.1) (Value.signed_fails sign)
  | .group t, s, h => eval_fails t s h
  | .sum l r, s, h => by
    have hl := (eval_fails l s h.1).mono (explains_of_subset (List.subset_append_left _ r.reads) s)
    have hr := (eval_fails r s h.2.1).mono (explains_of_subset (List.subset_append_right l.reads _) s)
    exact hl.andThen fun a => explains_apply hr (Value.sum_fails a)
  | .subtract l r, s, h => by
    have hl := (eval_fails l s h.1).mono (explains_of_subset (List.subset_append_left _ r.reads) s)
    have hr := (eval_fails r s h.2.1).mono (explains_of_subset (List.subset_append_right l.reads _) s)
    exact hl.andThen fun a => explains_apply hr (Value.subtract_fails a)
  | .array ts, s, h => explains_apply (evalAll_fails ts s h.1) Value.ofArray_fails
  | .matrix ts, s, h => explains_apply (evalAll_fails ts s h) Value.ofMatrix_fails
  | .determinant t, s, h => explains_apply (eval_fails t s h) Value.determinant_fails
theorem evalAll_fails : ∀ (ts : List Tree) (s : Store), AreExpressions ts →
    (evalAll ts s).FailsIn s (Explains (readsAll ts) s)
  | [], _, _ => ⟨rfl, failsOnly_ok []⟩
  | t :: ts, s, h => by
    have ht := (eval_fails t s h.1).mono (explains_of_subset (List.subset_append_left _ (readsAll ts)) s)
    have hts := (evalAll_fails ts s h.2).mono (explains_of_subset (List.subset_append_right t.reads _) s)
    exact ht.andThen fun v => hts.apply fun vs => failsOnly_ok (v :: vs)
end

/-- A statement of a text that fails leaves the store alone, and fails in an operation or at a variable
that is not bound. -/
theorem explains_of_isStatement {t : Tree} {s : Store} {f : Fault} (ht : t.IsStatement)
    (h : (t.eval s).1 = .error f) : (t.eval s).2 = s ∧ Explains t.reads s f := by
  cases t with
  | assign name e =>
    obtain ⟨hs, hf⟩ := eval_fails e s ht.2
    rw [eval] at h ⊢
    generalize e.eval s = o at hs hf h
    obtain ⟨r, s'⟩ := o
    cases r with
    | ok v => cases h
    | error f' =>
      cases h
      exact ⟨hs, hf f rfl⟩
  | print e =>
    have he := (eval_fails e s ht).apply (f := fun v => .ok (Value.text v.render))
      fun v => failsOnly_ok _
    exact ⟨he.1, he.2 f h⟩
  | _ => exact ht.elim

theorem evalAll_cons_ok {t : Tree} {s s' : Store} {v : Value} (h : t.eval s = (.ok v, s'))
    (ts : List Tree) :
    evalAll (t :: ts) s = ((evalAll ts s').1.map (v :: ·), (evalAll ts s').2) := by
  rw [evalAll, h]
  show (evalAll ts s').apply _ = _
  generalize evalAll ts s' = o
  obtain ⟨r, s''⟩ := o
  cases r with
  | ok vs => rfl
  | error f => rfl

theorem evalAll_cons_error {t : Tree} {s s' : Store} {f : Fault} (h : t.eval s = (.error f, s'))
    (ts : List Tree) : evalAll (t :: ts) s = (.error f, s') := by
  rw [evalAll, h]
  rfl

/-- Trees in order fail at the first of them that fails, and leave the store that it leaves. -/
theorem exists_of_evalAll_error {ts : List Tree} {s s' : Store} {f : Fault}
    (h : evalAll ts s = (.error f, s')) : ∃ before t after vs s₁, ts = before ++ t :: after ∧
      evalAll before s = (.ok vs, s₁) ∧ t.eval s₁ = (.error f, s') := by
  induction ts generalizing s with
  | nil => cases h
  | cons t ts ih =>
    cases ht : t.eval s with
    | mk r s₁ =>
      cases r with
      | error e =>
        rw [evalAll_cons_error ht] at h
        cases h
        exact ⟨[], t, ts, [], s, rfl, rfl, ht⟩
      | ok v =>
        rw [evalAll_cons_ok ht, Prod.mk.injEq] at h
        have htail : evalAll ts s₁ = (.error f, s') := by
          refine Prod.ext ?_ h.2
          cases hr : (evalAll ts s₁).1 with
          | ok vs =>
            rw [hr] at h
            cases h.1
          | error e =>
            rw [hr] at h
            exact congrArg _ (Except.error.inj h.1)
        obtain ⟨before, u, after, vs, s₂, rfl, hbefore, hu⟩ := ih htail
        refine ⟨t :: before, u, after, v :: vs, s₂, rfl, ?_, hu⟩
        rw [evalAll_cons_ok ht, hbefore]
        rfl

/-- **Faults of texts.** The statements of a text that parses, evaluated in order from any store, all
have values; or the first that fails does so in an operation on values, or for a variable that it
reads and that is not bound when it starts. Evaluation by coercions, in which anything else could
come out, gives the same values and stops with that fault. -/
theorem evalAll_of_parseProgram {text : String} {ts : List Tree} (h : parseProgram text = .ok ts)
    (s : Store) :
    (∃ vs s', evalAll ts s = (.ok vs, s') ∧ (walkAll ts).run.run s = (.ok vs, s')) ∨
    ∃ before t after vs s' f, ts = before ++ t :: after ∧ evalAll before s = (.ok vs, s') ∧
      t.eval s' = (.error f, s') ∧ evalAll ts s = (.error f, s') ∧
      (walkAll ts).run.run s = (.error (.fault f), s') ∧
      (f.IsOfOperation ∨ ∃ x, f = .undefinedVariable x ∧ x ∈ t.reads ∧ s'.get? x = none) := by
  have hwalk := walkAll_eq ts s
  cases heval : evalAll ts s with
  | mk r s' =>
    rw [heval] at hwalk
    cases r with
    | ok vs => exact .inl ⟨vs, s', rfl, hwalk⟩
    | error f =>
      obtain ⟨before, t, after, vs, s₁, rfl, hbefore, ht⟩ := exists_of_evalAll_error heval
      have hstatement : t.IsStatement :=
        isStatement_of_parseProgram h t (List.mem_append_right _ List.mem_cons_self)
      obtain ⟨hs, hf⟩ := explains_of_isStatement (f := f) hstatement (by rw [ht])
      rw [ht] at hs
      obtain rfl : s' = s₁ := hs
      exact .inr ⟨before, t, after, vs, s', f, rfl, hbefore, ht, rfl, hwalk, hf⟩

/-- A list has no sum, and a variable may be bound by the statement before. -/
theorem evalAll_of_parseProgram_sum :
    let text := "x = [1, .5e2]; x + x; y"
    let ts : List Tree := [.assign "x" (.array [.number "1", .number ".5e2"]),
      .print (.sum (.variable "x") (.variable "x")), .print (.variable "y")]
    parseProgram text = .ok ts ∧
    ((∃ vs s', evalAll ts .empty = (.ok vs, s') ∧ (walkAll ts).run.run .empty = (.ok vs, s')) ∨
    ∃ before t after vs s' f, ts = before ++ t :: after ∧ evalAll before .empty = (.ok vs, s') ∧
      t.eval s' = (.error f, s') ∧ evalAll ts .empty = (.error f, s') ∧
      (walkAll ts).run.run .empty = (.error (.fault f), s') ∧
      (f.IsOfOperation ∨ ∃ x, f = .undefinedVariable x ∧ x ∈ t.reads ∧ s'.get? x = none)) := by
  intro text ts
  have h : parseProgram text = .ok ts := by
    unfold text ts
    with_unfolding_all rfl
  exact ⟨h, evalAll_of_parseProgram h .empty⟩

end Tree

end MatrixCalc
