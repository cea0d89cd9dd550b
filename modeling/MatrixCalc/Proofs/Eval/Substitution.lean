import MatrixCalc.Proofs.Eval.Effects

/-!
# Substitution

A variable can be replaced by an expression that has its value: a tree evaluated with the variable bound
to that value goes as the tree with the expression in the variable's places (`eval_substitute`).

1. `Outcome.Matches s s' o o'`: the results are the same, and each of the two evaluations leaves its own
   store. It goes through the steps of an evaluation (`Matches.andThen`).
2. `eval_matches` is an induction over trees, with `evalAll_matches` for their members. Only variables
   are of interest, and there the two stores are compared (`lookup_assign`).
-/

namespace MatrixCalc

theorem Store.lookup_assign (s : Store) (name x : String) (v : Value) :
    (s.assign name v).lookup x = if x = name then .ok v else s.lookup x := by
  unfold Store.lookup
  rw [get?_assign]
  by_cases h : x = name
  · rw [if_pos h, if_pos h]
  · rw [if_neg h, if_neg h]

namespace Outcome

/-- The results are the same, and each outcome has its own store behind it. -/
structure Matches {α : Type} (s s' : Store) (o o' : Outcome α) : Prop where
  result : o.1 = o'.1
  store : o.2 = s
  store' : o'.2 = s'

variable {α β : Type} {s s' : Store} {o o' : Outcome α}

theorem Matches.andThen {f g : α → Store → Outcome β} (h : Matches s s' o o')
    (hf : ∀ a, Matches s s' (f a s) (g a s')) : Matches s s' (o.andThen f) (o'.andThen g) := by
  obtain ⟨r, t⟩ := o
  obtain ⟨r', t'⟩ := o'
  obtain ⟨rfl, rfl, rfl⟩ := h
  cases r with
  | ok a => exact hf a
  | error e => exact ⟨rfl, rfl, rfl⟩

theorem Matches.apply (h : Matches s s' o o') (f : α → Except Fault β) :
    Matches s s' (o.apply f) (o'.apply f) :=
  h.andThen fun _ => ⟨rfl, rfl, rfl⟩

end Outcome

namespace Tree

mutual
/-- The tree with another one in the places of a variable. -/
def substitute (x : String) (d : Tree) : Tree → Tree
  | .number text => .number text
  | .variable name => if name = x then d else .variable name
  | .signed sign t => .signed sign (substitute x d t)
  | .group t => .group (substitute x d t)
  | .sum l r => .sum (substitute x d l) (substitute x d r)
  | .subtract l r => .subtract (substitute x d l) (substitute x d r)
  | .array ts => .array (substituteAll x d ts)
  | .matrix ts => .matrix (substituteAll x d ts)
  | .determinant t => .determinant (substitute x d t)
  | .assign name t => .assign name (substitute x d t)
  | .print t => .print (substitute x d t)
  | .foreign type => .foreign type
/-- The trees with another one in the places of a variable. -/
def substituteAll (x : String) (d : Tree) : List Tree → List Tree
  | [] => []
  | t :: ts => substitute x d t :: substituteAll x d ts
end

section Matches

variable {x : String} {d : Tree} {s : Store} {v : Value}

mutual
theorem eval_matches (hd : d.eval s = (.ok v, s)) : ∀ e : Tree, e.targets = [] →
    Outcome.Matches (s.assign x v) s (e.eval (s.assign x v)) ((substitute x d e).eval s)
  | .number _, _ => ⟨rfl, rfl, rfl⟩
  | .foreign _, _ => ⟨rfl, rfl, rfl⟩
  | .variable name, _ => by
    rw [eval, substitute, Store.lookup_assign]
    by_cases h : name = x
    · rw [if_pos h, if_pos h, hd]
      exact ⟨rfl, rfl, rfl⟩
    · rw [if_neg h, if_neg h]
      exact ⟨rfl, rfl, rfl⟩
  | .signed sign e, he => (eval_matches hd e he).apply (Value.signed sign)
  | .group e, he => eval_matches hd e he
  | .determinant e, he => (eval_matches hd e he).apply Value.determinant
  | .print e, he => (eval_matches hd e he).apply _
  | .sum l r, he => by
    obtain ⟨hl, hr⟩ := List.append_eq_nil_iff.1 he
    exact (eval_matches hd l hl).andThen fun a => (eval_matches hd r hr).apply (Value.sum a)
  | .subtract l r, he => by
    obtain ⟨hl, hr⟩ := List.append_eq_nil_iff.1 he
    exact (eval_matches hd l hl).andThen fun a => (eval_matches hd r hr).apply (Value.subtract a)
  | .array ts, he => (evalAll_matches hd ts he).apply Value.ofArray
  | .matrix ts, he => (evalAll_matches hd ts he).apply Value.ofMatrix
  | .assign name e, he => by
    rw [targets] at he
    exact absurd he (List.append_ne_nil_of_right_ne_nil _ (List.cons_ne_nil _ _))
theorem evalAll_matches (hd : d.eval s = (.ok v, s)) : ∀ es : List Tree, targetsAll es = [] →
    Outcome.Matches (s.assign x v) s (evalAll es (s.assign x v)) (evalAll (substituteAll x d es) s)
  | [], _ => ⟨rfl, rfl, rfl⟩
  | e :: es, he => by
    obtain ⟨he, hes⟩ := List.append_eq_nil_iff.1 he
    exact (eval_matches hd e he).andThen fun w => (evalAll_matches hd es hes).apply _
end

end Matches

/-- **Substitution.** Where no assignment stands in `d` and `e`, and `d` has a value, `e` has the same
result with `x` bound to that value as it has with `d` in the places of `x`: the same value or the same
fault. That binding is what an assignment of `d` to `x` makes, so to assign `d` and then evaluate `e` is
to evaluate the one tree. Neither evaluation changes its store. -/
theorem eval_substitute {d e : Tree} (hd : d.targets = []) (he : e.targets = []) (x : String)
    {s : Store} {v : Value} (hv : (d.eval s).1 = .ok v) :
    (assign x d).eval s = (.ok v, s.assign x v) ∧
    ∃ r, e.eval (s.assign x v) = (r, s.assign x v) ∧ (substitute x d e).eval s = (r, s) := by
  have hds : d.eval s = (.ok v, s) := Prod.ext hv (eval_of_targets hd s)
  refine ⟨?_, ?_⟩
  · rw [eval, hds]
    rfl
  · have h := eval_matches (x := x) hds e he
    exact ⟨_, Prod.ext rfl h.store, Prod.ext h.result.symm h.store'⟩

/-- The expression mentions the variable that it replaces, and the tree fails behind its places. -/
theorem eval_substitute_failing :
    let s : Store := .ofList [("x", .scalar 1.0), ("m", .matrix .empty)]
    let d : Tree := .sum (.variable "x") (.variable "x")
    let e : Tree := .matrix [.variable "x", .group (.signed "-" (.variable "x")),
      .subtract (.variable "m") (.variable "x")]
    let v : Value := .scalar (1.0 + 1.0)
    d.targets = [] ∧ e.targets = [] ∧ (d.eval s).1 = .ok v ∧
    (assign "x" d).eval s = (.ok v, s.assign "x" v) ∧
    ∃ r, e.eval (s.assign "x" v) = (r, s.assign "x" v) ∧ (substitute "x" d e).eval s = (r, s) := by
  intro s d e v
  have hv : (d.eval s).1 = .ok v := rfl
  exact ⟨rfl, rfl, hv, eval_substitute (d := d) (e := e) rfl rfl "x" hv⟩

end Tree

end MatrixCalc
