import MatrixCalc.Proofs.Decimal.Negation
import MatrixCalc.Proofs.Eval.Effects

/-!
# Differences as sums

A difference is the sum with the negated second operand, with the same value, and up to its operation
with the same fault (`eval_subtract_sum`). Only texts are told apart: they have no negation.

1. `Value.DifferenceAgrees` says how the two results compare, by the kinds of the operands, and
   `differenceAgrees` goes through the kinds.
2. Both trees evaluate the same operands from the same stores, so they fail with them
   (`evalOperands_cases`); otherwise the operations decide.
-/

namespace MatrixCalc

/-- The faults are a difference's and a sum's, and otherwise the same. -/
inductive Fault.SameButOperation : Fault → Fault → Prop where
  | kindsDiffer (l r : Kind) : SameButOperation (.kindsDiffer .subtract l r) (.kindsDiffer .sum l r)
  | shape (f : ShapeFault) : SameButOperation (.shape .subtract f) (.shape .sum f)
  | unsupported (k : Kind) : SameButOperation (.unsupported .subtract k) (.unsupported .sum k)

namespace Value

/-- How the difference of two values compares with the sum of the first and the negated second. -/
inductive DifferenceAgrees : Value → Value → Except Fault Value → Except Fault Value → Prop where
  /-- Scalars have one difference. -/
  | scalars (x y : Float) : DifferenceAgrees (.scalar x) (.scalar y)
      (.ok (.scalar (x - y))) (.ok (.scalar (x - y)))
  /-- Of matrices, both are the sum with minus one times the second. -/
  | matrices {a b c : Matrix} (h : a.add (b.scale (-1.0)) = .ok c) :
    DifferenceAgrees (.matrix a) (.matrix b) (.ok (.matrix c)) (.ok (.matrix c))
  /-- Both fail, with one fault but for the operation. -/
  | faults {v w : Value} {f g : Fault} (hw : w.kind ≠ .string) (h : f.SameButOperation g) :
    DifferenceAgrees v w (.error f) (.error g)
  /-- A text has no negation. -/
  | text (v : Value) (s : String) : DifferenceAgrees v (.text s)
      (.error (if v.kind = .string then .unsupported .subtract .string
        else .kindsDiffer .subtract v.kind .string))
      (.error (.unsupported .negate .string))

/-- Where one of the two has a value, the other has the same. -/
theorem DifferenceAgrees.ok_iff {v w : Value} {r r' : Except Fault Value}
    (h : DifferenceAgrees v w r r') (u : Value) : r = .ok u ↔ r' = .ok u := by
  cases h with
  | scalars x y => exact Iff.rfl
  | matrices h => exact Iff.rfl
  | faults hw h => exact ⟨nofun, nofun⟩
  | text v s => exact ⟨nofun, nofun⟩

theorem differenceAgrees (v w : Value) :
    DifferenceAgrees v w (v.subtract w) ((w.signed "-").bind v.sum) := by
  cases w with
  | text s => cases v <;> exact .text _ s
  | scalar y =>
    cases v with
    | scalar x =>
      show DifferenceAgrees _ _ (.ok (.scalar (x - y))) (.ok (.scalar (x + -y)))
      rw [← Double.sub_eq_add_neg]
      exact .scalars x y
    | _ => exact .faults nofun (.kindsDiffer _ _)
  | list ys =>
    cases v with
    | list xs => exact .faults nofun (.unsupported _)
    | _ => exact .faults nofun (.kindsDiffer _ _)
  | matrix b =>
    cases v with
    | matrix a =>
      unfold Value.subtract
      show DifferenceAgrees _ _ _ (Value.sum (.matrix a) (.matrix b.negate))
      unfold Value.sum
      dsimp only
      cases h : a.add b.negate with
      | ok c => exact .matrices h
      | error f => exact .faults nofun (.shape f)
    | _ => exact .faults nofun (.kindsDiffer _ _)

end Value

namespace Tree

/-- The two operands in order, and an operation on their values. -/
def evalOperands (op : Value → Value → Except Fault Value) (a b : Tree) (s : Store) : Outcome Value :=
  (a.eval s).andThen fun v s => (b.eval s).apply (op v)

/-- The fault is one of the operands. -/
def FailsInOperand (a b : Tree) (s : Store) (f : Fault) : Prop :=
  (a.eval s).1 = .error f ∨ ∃ v s₁, a.eval s = (.ok v, s₁) ∧ (b.eval s₁).1 = .error f

/-- An operand fails, whatever the operation is, or the operation decides on their values. -/
theorem evalOperands_cases (a b : Tree) (s : Store) :
    (∃ f s', FailsInOperand a b s f ∧ ∀ op, evalOperands op a b s = (.error f, s')) ∨
    ∃ v w s₁ s₂, a.eval s = (.ok v, s₁) ∧ b.eval s₁ = (.ok w, s₂) ∧
      ∀ op, evalOperands op a b s = (op v w, s₂) := by
  unfold evalOperands FailsInOperand
  cases ha : a.eval s with
  | mk r s₁ =>
    cases r with
    | error f => exact .inl ⟨f, s₁, .inl rfl, fun op => rfl⟩
    | ok v =>
      dsimp only [Outcome.andThen]
      cases hb : b.eval s₁ with
      | mk r s₂ =>
        cases r with
        | error f => exact .inl ⟨f, s₂, .inr ⟨v, s₁, rfl, by rw [hb]⟩, fun op => rfl⟩
        | ok w => exact .inr ⟨v, w, s₁, s₂, rfl, hb, fun op => rfl⟩

theorem eval_subtract (a b : Tree) (s : Store) :
    (subtract a b).eval s = evalOperands Value.subtract a b s := rfl

theorem eval_sum_negated (a b : Tree) (s : Store) : (sum a (.signed "-" b)).eval s =
    evalOperands (fun v w => (w.signed "-").bind v.sum) a b s := by
  unfold evalOperands
  rw [eval]
  congr 1
  funext v s₁
  rw [eval, Outcome.apply_apply]

/-- **Differences as sums.** `a - b` and `a + -b` leave the same store, and have a value in the same
cases and then the same one. Otherwise both fail with an operand's fault; or, the operands having values
`v` and `w`, both fail with one fault but for the operation, or `w` is a text, which cannot be negated. -/
theorem eval_subtract_sum (a b : Tree) (s : Store) :
    let d := (subtract a b).eval s
    let n := (sum a (.signed "-" b)).eval s
    d.2 = n.2 ∧ (∀ u, d.1 = .ok u ↔ n.1 = .ok u) ∧
    ((∃ f, FailsInOperand a b s f ∧ d.1 = .error f ∧ n.1 = .error f) ∨
      ∃ v w s₁ s₂, a.eval s = (.ok v, s₁) ∧ b.eval s₁ = (.ok w, s₂) ∧
        Value.DifferenceAgrees v w d.1 n.1) := by
  intro d n
  have hd : d = evalOperands Value.subtract a b s := eval_subtract a b s
  have hn : n = evalOperands (fun v w => (w.signed "-").bind v.sum) a b s := eval_sum_negated a b s
  obtain ⟨f, s', hf, hop⟩ | ⟨v, w, s₁, s₂, hv, hw, hop⟩ := evalOperands_cases a b s
  · rw [hd, hn, hop, hop]
    exact ⟨rfl, fun u => Iff.rfl, .inl ⟨f, hf, rfl, rfl⟩⟩
  · have h := v.differenceAgrees w
    rw [hd, hn, hop, hop]
    exact ⟨rfl, h.ok_iff, .inr ⟨v, w, s₁, s₂, hv, hw, h⟩⟩

end Tree

end MatrixCalc
