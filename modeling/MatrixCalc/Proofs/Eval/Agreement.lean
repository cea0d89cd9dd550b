import MatrixCalc.Proofs.Eval.Effects
import MatrixCalc.Proofs.Eval.Faults

/-!
# What evaluation reads of the store

Evaluation sees the store only through the variables that the tree reads. Two stores that agree on
these, and on as many other names as one likes, lead to the same result and to stores that agree on
all these names again (`eval_sameOn`): names that are assigned are assigned in both or in neither.
-/

namespace MatrixCalc

/-- Each of the names has the same value in both stores, or none. -/
def Store.AgreeOn (xs : List String) (s s' : Store) : Prop := ∀ x ∈ xs, s.get? x = s'.get? x

theorem Store.AgreeOn.assign {xs : List String} {s s' : Store} (h : AgreeOn xs s s')
    (name : String) (v : Value) : AgreeOn xs (s.assign name v) (s'.assign name v) := by
  intro x hx
  rw [get?_assign, get?_assign, h x hx]

theorem Store.AgreeOn.lookup {xs : List String} {s s' : Store} (h : AgreeOn xs s s')
    {name : String} (hname : name ∈ xs) : s.lookup name = s'.lookup name := by
  unfold Store.lookup
  rw [h name hname]

/-- The store agrees on the names with the one from which it has changed, if none is a target. -/
theorem Store.Changes.agreeOn {xs targets : List String} {s s' : Store} (h : Changes targets s s')
    (hxs : ∀ x ∈ xs, x ∉ targets) : AgreeOn xs s' s :=
  fun x hx => h.get? x (hxs x hx)

namespace Outcome

/-- The results are the same, and the stores agree on the names. -/
structure SameOn {α : Type} (xs : List String) (o o' : Outcome α) : Prop where
  result : o.1 = o'.1
  store : Store.AgreeOn xs o.2 o'.2

variable {α β : Type} {xs : List String} {o o' : Outcome α}

theorem SameOn.andThen {f : α → Store → Outcome β} (h : SameOn xs o o')
    (hf : ∀ a s s', Store.AgreeOn xs s s' → SameOn xs (f a s) (f a s')) :
    SameOn xs (o.andThen f) (o'.andThen f) := by
  obtain ⟨r, s⟩ := o
  obtain ⟨r', s'⟩ := o'
  obtain ⟨rfl, hs⟩ := h
  cases r with
  | ok a => exact hf a s s' hs
  | error e => exact ⟨rfl, hs⟩

theorem SameOn.apply (h : SameOn xs o o') (f : α → Except Fault β) :
    SameOn xs (o.apply f) (o'.apply f) :=
  h.andThen fun _ _ _ hs => ⟨rfl, hs⟩

end Outcome

namespace Tree

mutual
theorem eval_sameOn {xs : List String} : ∀ (t : Tree) {s s' : Store}, t.reads ⊆ xs →
    Store.AgreeOn xs s s' → Outcome.SameOn xs (t.eval s) (t.eval s')
  | .number _, _, _, _, hs => ⟨rfl, hs⟩
  | .variable name, _, _, hr, hs => ⟨hs.lookup (hr (List.mem_singleton_self name)), hs⟩
  | .foreign _, _, _, _, hs => ⟨rfl, hs⟩
  | .signed sign t, _, _, hr, hs => (eval_sameOn t hr hs).apply (Value.signed sign)
  | .group t, _, _, hr, hs => eval_sameOn t hr hs
  | .determinant t, _, _, hr, hs => (eval_sameOn t hr hs).apply Value.determinant
  | .print t, _, _, hr, hs => (eval_sameOn t hr hs).apply _
  | .sum l r, _, _, hr, hs => by
    obtain ⟨hl, hr⟩ := List.append_subset.1 hr
    exact (eval_sameOn l hl hs).andThen fun a _ _ hs =>
      (eval_sameOn r hr hs).apply (Value.sum a)
  | .subtract l r, _, _, hr, hs => by
    obtain ⟨hl, hr⟩ := List.append_subset.1 hr
    exact (eval_sameOn l hl hs).andThen fun a _ _ hs =>
      (eval_sameOn r hr hs).apply (Value.subtract a)
  | .array ts, _, _, hr, hs => (evalAll_sameOn ts hr hs).apply Value.ofArray
  | .matrix ts, _, _, hr, hs => (evalAll_sameOn ts hr hs).apply Value.ofMatrix
  | .assign name t, _, _, hr, hs =>
    (eval_sameOn t hr hs).andThen fun v _ _ hs => ⟨rfl, hs.assign name v⟩
theorem evalAll_sameOn {xs : List String} : ∀ (ts : List Tree) {s s' : Store}, readsAll ts ⊆ xs →
    Store.AgreeOn xs s s' → Outcome.SameOn xs (evalAll ts s) (evalAll ts s')
  | [], _, _, _, hs => ⟨rfl, hs⟩
  | t :: ts, _, _, hr, hs => by
    obtain ⟨ht, hts⟩ := List.append_subset.1 hr
    exact (eval_sameOn t ht hs).andThen fun v _ _ hs => (evalAll_sameOn ts hts hs).apply _
end

end Tree

end MatrixCalc
