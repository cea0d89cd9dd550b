import Mathlib.Data.List.Forall2
import MatrixCalc.Eval

/-!
# Evaluation goes by kinds and shapes

Two values are alike if they have one kind and one shape, two stores if they bind the same names in
the same order to values that are alike. From alike stores every tree gives alike values or the same
fault, and leaves alike stores (`eval_of_alike`): no number decides whether a tree has a value.

1. Each operation on values takes alike operands to alike results (`negate_alike`, `sum_alike`,
   `ofMatrix_alike` and so on). The checks see kinds, lengths and shapes only.
2. `Outcome.Alike.andThen` carries alikeness through the steps of an evaluation.
3. `eval_alike` is an induction over trees, with `evalAll_alike` for their members.
-/

namespace MatrixCalc

/-! ## Alike values, results and stores -/

/-- The values have one kind and one shape. -/
inductive Value.Alike : Value → Value → Prop where
  | scalar (x y : Float) : Alike (.scalar x) (.scalar y)
  | list {xs ys : List Float} : xs.length = ys.length → Alike (.list xs) (.list ys)
  | matrix {m n : Matrix} : m.shape = n.shape → Alike (.matrix m) (.matrix n)
  | text (s t : String) : Alike (.text s) (.text t)

/-- Both results are there and related, or both are the same fault. -/
inductive AlikeResults {ε α β : Type} (R : α → β → Prop) : Except ε α → Except ε β → Prop where
  | ok {a : α} {b : β} : R a b → AlikeResults R (.ok a) (.ok b)
  | error (e : ε) : AlikeResults R (.error e) (.error e)

/-- The bindings have the same names in the same order, and values that are alike. -/
abbrev AlikeBindings : List (String × Value) → List (String × Value) → Prop :=
  List.Forall₂ fun b b' => b.1 = b'.1 ∧ b.2.Alike b'.2

/-- The stores bind the same names in the same order to values that are alike. -/
def Store.Alike (s s' : Store) : Prop := AlikeBindings s.bindings s'.bindings

/-- The results are alike, and so are the stores behind them. -/
def Outcome.Alike {α β : Type} (R : α → β → Prop) (o : Outcome α) (o' : Outcome β) : Prop :=
  AlikeResults R o.1 o'.1 ∧ o.2.Alike o'.2

theorem Value.Alike.kind_eq {v w : Value} (h : v.Alike w) : v.kind = w.kind := by
  cases h <;> rfl

theorem AlikeResults.eq_or_eq {ε α β : Type} {R : α → β → Prop} {r : Except ε α} {r' : Except ε β}
    (h : AlikeResults R r r') : (∃ a b, r = .ok a ∧ r' = .ok b ∧ R a b) ∨
      ∃ e, r = .error e ∧ r' = .error e := by
  cases h with
  | ok hab => exact .inl ⟨_, _, rfl, rfl, hab⟩
  | error e => exact .inr ⟨e, rfl, rfl⟩

theorem AlikeResults.map {ε α β γ δ : Type} {R : α → β → Prop} {Q : γ → δ → Prop} {f : α → γ}
    {g : β → δ} {r : Except ε α} {r' : Except ε β} (h : AlikeResults R r r')
    (hf : ∀ a b, R a b → Q (f a) (g b)) : AlikeResults Q (r.map f) (r'.map g) := by
  cases h with
  | ok hab => exact .ok (hf _ _ hab)
  | error e => exact .error e

namespace Outcome

theorem Alike.andThen {α β γ δ : Type} {R : α → β → Prop} {Q : γ → δ → Prop} {o : Outcome α}
    {o' : Outcome β} {f : α → Store → Outcome γ} {g : β → Store → Outcome δ} (h : Alike R o o')
    (hf : ∀ a b s s', R a b → s.Alike s' → Alike Q (f a s) (g b s')) :
    Alike Q (o.andThen f) (o'.andThen g) := by
  obtain ⟨r, s⟩ := o
  obtain ⟨r', s'⟩ := o'
  obtain ⟨hr, hs⟩ := h
  cases hr with
  | ok hab => exact hf _ _ _ _ hab hs
  | error e => exact ⟨.error e, hs⟩

theorem Alike.apply {α β γ δ : Type} {R : α → β → Prop} {Q : γ → δ → Prop} {o : Outcome α}
    {o' : Outcome β} {f : α → Except Fault γ} {g : β → Except Fault δ} (h : Alike R o o')
    (hf : ∀ a b, R a b → AlikeResults Q (f a) (g b)) : Alike Q (o.apply f) (o'.apply g) :=
  h.andThen fun a b _ _ hab hs => ⟨hf a b hab, hs⟩

end Outcome

/-! ## Stores -/

theorem lookup_alikeBindings {bs bs' : List (String × Value)} (h : AlikeBindings bs bs')
    (name : String) : Option.Rel Value.Alike (bs.lookup name) (bs'.lookup name) := by
  induction h with
  | nil => exact .none
  | cons hb _ ih =>
    rw [List.lookup_cons, List.lookup_cons, hb.1]
    split
    · exact .some hb.2
    · exact ih

theorem bindIn_alikeBindings {bs bs' : List (String × Value)} {v w : Value}
    (h : AlikeBindings bs bs') (name : String) (hv : v.Alike w) :
    AlikeBindings (bindIn name v bs) (bindIn name w bs') := by
  induction h with
  | nil => exact .cons ⟨rfl, hv⟩ .nil
  | cons hb hbs ih =>
    unfold bindIn
    rw [hb.1]
    split
    · exact .cons ⟨rfl, hv⟩ hbs
    · exact .cons hb ih

theorem Store.Alike.lookup {s s' : Store} (h : s.Alike s') (name : String) :
    AlikeResults Value.Alike (s.lookup name) (s'.lookup name) := by
  unfold Store.lookup
  generalize hv : s.get? name = v
  generalize hw : s'.get? name = w
  have hrel : Option.Rel Value.Alike v w := hv ▸ hw ▸ lookup_alikeBindings h name
  cases hrel with
  | none => exact .error _
  | some hvw => exact .ok hvw

theorem Store.Alike.assign {s s' : Store} {v w : Value} (h : s.Alike s') (name : String)
    (hv : v.Alike w) : (s.assign name v).Alike (s'.assign name w) :=
  bindIn_alikeBindings h name hv

/-! ## Operations -/

namespace Matrix

theorem add_alike {a a' b b' : Matrix} (ha : a.shape = a'.shape) (hb : b.shape = b'.shape) :
    AlikeResults (fun c c' => c.shape = c'.shape) (a.add b) (a'.add b') := by
  by_cases h : a.shape = b.shape
  · have h' : a'.shape = b'.shape := by rw [← ha, h, hb]
    obtain ⟨c, hc⟩ : ∃ c, a.add b = .ok c := ⟨_, dif_pos h⟩
    obtain ⟨c', hc'⟩ : ∃ c, a'.add b' = .ok c := ⟨_, dif_pos h'⟩
    rw [hc, hc']
    refine .ok ?_
    rw [shape_add hc, shape_add hc', ha]
  · have h' : ¬ a'.shape = b'.shape := by rwa [← ha, ← hb]
    have hc : a.add b = .error (.differ a.shape b.shape) := dif_neg h
    have hc' : a'.add b' = .error (.differ a'.shape b'.shape) := dif_neg h'
    rw [hc, hc', ha, hb]
    exact .error _

theorem shape_negate (m : Matrix) : m.negate.shape = m.shape := shape_scale m _

theorem determinant_of_square {m : Matrix} (h : m.rows = m.cols) : ∃ x, m.determinant = .ok x := by
  unfold determinant
  rw [if_pos h]
  split
  · exact ⟨_, rfl⟩
  · exact ⟨_, rfl⟩

theorem determinant_alike {m n : Matrix} (h : m.shape = n.shape) :
    AlikeResults (fun _ _ => True) m.determinant n.determinant := by
  obtain ⟨hrows, hcols⟩ : m.rows = n.rows ∧ m.cols = n.cols := Prod.ext_iff.1 h
  by_cases hm : m.rows = m.cols
  · obtain ⟨x, hx⟩ := determinant_of_square hm
    obtain ⟨y, hy⟩ := determinant_of_square (m := n) (by rw [← hrows, hm, hcols])
    rw [hx, hy]
    exact .ok trivial
  · have hx : m.determinant = .error (.notSquare m.shape) := if_neg hm
    have hy : n.determinant = .error (.notSquare n.shape) := if_neg (by rwa [← hrows, ← hcols])
    rw [hx, hy, h]
    exact .error _

/-- Rows make a matrix or not by their lengths. -/
theorem ofRows_alike {rows rows' : List (List Float)}
    (h : rows.map List.length = rows'.map List.length) :
    AlikeResults (fun m n => m.shape = n.shape) (ofRows rows) (ofRows rows') := by
  cases rows with
  | nil =>
    obtain rfl : rows' = [] := List.map_eq_nil_iff.1 h.symm
    exact .ok rfl
  | cons r rest =>
    cases rows' with
    | nil => cases h
    | cons r' rest' =>
      obtain ⟨hr, hrest⟩ := List.cons.inj h
      have hiff : (∀ row ∈ r :: rest, row.length = r.length) ↔
          ∀ row ∈ r' :: rest', row.length = r'.length := by
        rw [← List.forall_mem_map (P := (· = r.length)), h, hr, List.forall_mem_map]
      by_cases hw : ∀ row ∈ r :: rest, row.length = r.length
      · have hm : ofRows (r :: rest) = .ok ⟨r.length, r :: rest, hw⟩ := dif_pos hw
        have hn : ofRows (r' :: rest') = .ok ⟨r'.length, r' :: rest', hiff.1 hw⟩ :=
          dif_pos (hiff.1 hw)
        rw [hm, hn]
        refine .ok (Prod.ext ?_ hr)
        exact congrArg (· + 1) (by simpa using congrArg List.length hrest)
      · have hm : ofRows (r :: rest) = .error .unevenRows := dif_neg hw
        have hn : ofRows (r' :: rest') = .error .unevenRows := dif_neg (fun hc => hw (hiff.2 hc))
        rw [hm, hn]
        exact .error _

end Matrix

namespace Value

theorem negate_alike {v w : Value} (h : v.Alike w) : AlikeResults Alike v.negate w.negate := by
  cases h with
  | scalar x y => exact .ok (.scalar _ _)
  | list h => exact .ok (.list (by rw [List.length_map, List.length_map, h]))
  | matrix h => exact .ok (.matrix (by rw [Matrix.shape_negate, Matrix.shape_negate, h]))
  | text s t => exact .error _

theorem signed_alike {v w : Value} (sign : String) (h : v.Alike w) :
    AlikeResults Alike (v.signed sign) (w.signed sign) := by
  unfold Value.signed
  split
  · exact negate_alike h
  · exact .ok h

theorem sum_alike {a b c d : Value} (ha : a.Alike b) (hc : c.Alike d) :
    AlikeResults Alike (a.sum c) (b.sum d) := by
  cases ha with
  | matrix hm =>
    cases hc with
    | matrix hn =>
      unfold Value.sum
      dsimp only
      obtain ⟨x, y, hx, hy, hs⟩ | ⟨f, hx, hy⟩ := (Matrix.add_alike hm hn).eq_or_eq
      · rw [hx, hy]
        exact .ok (.matrix hs)
      · rw [hx, hy]
        exact .error _
    | _ => exact .error _
  | scalar x y =>
    cases hc with
    | scalar => exact .ok (.scalar _ _)
    | _ => exact .error _
  | list h => cases hc <;> exact .error _
  | text s t => cases hc <;> exact .error _

theorem subtract_alike {a b c d : Value} (ha : a.Alike b) (hc : c.Alike d) :
    AlikeResults Alike (a.subtract c) (b.subtract d) := by
  cases ha with
  | matrix hm =>
    cases hc with
    | @matrix m n hn =>
      have hneg : m.negate.shape = n.negate.shape := by
        rw [Matrix.shape_negate, Matrix.shape_negate, hn]
      unfold Value.subtract
      dsimp only
      obtain ⟨x, y, hx, hy, hs⟩ | ⟨f, hx, hy⟩ := (Matrix.add_alike hm hneg).eq_or_eq
      · rw [hx, hy]
        exact .ok (.matrix hs)
      · rw [hx, hy]
        exact .error _
    | _ => exact .error _
  | scalar x y =>
    cases hc with
    | scalar => exact .ok (.scalar _ _)
    | _ => exact .error _
  | list h => cases hc <;> exact .error _
  | text s t => cases hc <;> exact .error _

theorem determinant_alike {v w : Value} (h : v.Alike w) :
    AlikeResults Alike v.determinant w.determinant := by
  cases h with
  | matrix hs =>
    unfold Value.determinant
    dsimp only
    obtain ⟨x, y, hx, hy, -⟩ | ⟨f, hx, hy⟩ := (Matrix.determinant_alike hs).eq_or_eq
    · rw [hx, hy]
      exact .ok (.scalar x y)
    · rw [hx, hy]
      exact .error _
  | _ => exact .error _

/-! ### Members -/

section Members

variable {vs ws : List Value} (h : List.Forall₂ Alike vs ws)

include h

theorem scalars_alike :
    AlikeResults (fun xs ys => xs.length = ys.length) (scalars vs) (scalars ws) := by
  induction h with
  | nil => exact .ok rfl
  | cons hv _ ih =>
    cases hv with
    | scalar x y =>
      refine ih.map fun xs ys hl => ?_
      rw [List.length_cons, List.length_cons, hl]
    | _ => exact .error _

theorem ofArray_alike : AlikeResults Alike (ofArray vs) (ofArray ws) := by
  have hs := scalars_alike h
  cases h with
  | nil => exact .ok (.matrix rfl)
  | cons _ _ => exact hs.map fun xs ys hl => .list hl

theorem oddKind?_alike (k : Kind) : oddKind? k vs = oddKind? k ws := by
  induction h with
  | nil => rfl
  | cons hv _ ih =>
    unfold oddKind?
    rw [hv.kind_eq, ih]

theorem length_numbers_alike :
    (vs.filterMap number?).length = (ws.filterMap number?).length := by
  induction h with
  | nil => rfl
  | cons hv _ ih =>
    cases hv with
    | scalar x y => exact congrArg (· + 1) ih
    | _ => exact ih

theorem lengths_items_alike : (vs.filterMap items?).map List.length =
    (ws.filterMap items?).map List.length := by
  induction h with
  | nil => rfl
  | cons hv _ ih =>
    cases hv with
    | list hl => exact congrArg₂ List.cons hl ih
    | _ => exact ih

end Members

theorem ofRows_alike {rows rows' : List (List Float)}
    (h : rows.map List.length = rows'.map List.length) :
    AlikeResults Alike (ofRows rows) (ofRows rows') := by
  unfold Value.ofRows
  obtain ⟨x, y, hx, hy, hs⟩ | ⟨f, hx, hy⟩ := (Matrix.ofRows_alike h).eq_or_eq
  · rw [hx, hy]
    exact .ok (.matrix hs)
  · rw [hx, hy, h]
    exact .error _

theorem ofMatrix_alike {vs ws : List Value} (h : List.Forall₂ Alike vs ws) :
    AlikeResults Alike (ofMatrix vs) (ofMatrix ws) := by
  have hnumbers := length_numbers_alike h
  have hitems := lengths_items_alike h
  cases h with
  | nil => exact .ok (.matrix rfl)
  | cons hv hvs =>
    unfold ofMatrix
    dsimp only
    rw [hv.kind_eq, oddKind?_alike hvs]
    split
    · exact .error _
    · split
      · refine .ok (.matrix ?_)
        rw [Matrix.shape_ofRow, Matrix.shape_ofRow, hnumbers]
      · exact ofRows_alike hitems
      · exact .error _

end Value

/-! ## Trees -/

namespace Tree

mutual
theorem eval_alike : ∀ (t : Tree) {s s' : Store}, s.Alike s' →
    Outcome.Alike Value.Alike (t.eval s) (t.eval s')
  | .number text, _, _, h => by
    refine ⟨?_, h⟩
    unfold eval Value.ofNumeral
    dsimp only
    split
    · split
      · exact .ok (.scalar _ _)
      · exact .error _
    · exact .error _
  | .variable name, _, _, h => ⟨h.lookup name, h⟩
  | .signed sign t, _, _, h => (eval_alike t h).apply fun _ _ => Value.signed_alike sign
  | .group t, _, _, h => eval_alike t h
  | .sum l r, _, _, h => (eval_alike l h).andThen fun _ _ _ _ ha hs =>
      (eval_alike r hs).apply fun _ _ hb => Value.sum_alike ha hb
  | .subtract l r, _, _, h => (eval_alike l h).andThen fun _ _ _ _ ha hs =>
      (eval_alike r hs).apply fun _ _ hb => Value.subtract_alike ha hb
  | .array ts, _, _, h => (evalAll_alike ts h).apply fun _ _ => Value.ofArray_alike
  | .matrix ts, _, _, h => (evalAll_alike ts h).apply fun _ _ => Value.ofMatrix_alike
  | .determinant t, _, _, h => (eval_alike t h).apply fun _ _ => Value.determinant_alike
  | .assign name t, _, _, h => (eval_alike t h).andThen fun _ _ _ _ hv hs =>
      ⟨.ok hv, hs.assign name hv⟩
  | .print t, _, _, h => (eval_alike t h).apply fun _ _ _ => .ok (.text _ _)
  | .foreign _, _, _, h => ⟨.error _, h⟩
theorem evalAll_alike : ∀ (ts : List Tree) {s s' : Store}, s.Alike s' →
    Outcome.Alike (List.Forall₂ Value.Alike) (evalAll ts s) (evalAll ts s')
  | [], _, _, h => ⟨.ok .nil, h⟩
  | t :: ts, _, _, h => (eval_alike t h).andThen fun _ _ _ _ hv hs =>
      (evalAll_alike ts hs).apply fun _ _ hvs => .ok (.cons hv hvs)
end

/-- **Typing without data.** From alike stores a tree gives alike values or the same fault, and
leaves alike stores. -/
theorem eval_of_alike (t : Tree) {s s' : Store} (h : s.Alike s') :
    ((∃ v w, (t.eval s).1 = .ok v ∧ (t.eval s').1 = .ok w ∧ v.Alike w) ∨
      ∃ f, (t.eval s).1 = .error f ∧ (t.eval s').1 = .error f) ∧
    (t.eval s).2.Alike (t.eval s').2 :=
  ⟨(eval_alike t h).1.eq_or_eq, (eval_alike t h).2⟩

/-- A singular matrix and NaN are taken as any other numbers are. -/
theorem eval_of_alike_singular :
    let s : Store := .ofList [("m", .matrix (.zeros 2 2)), ("x", .scalar (0.0 / 0.0))]
    let m : Matrix := ⟨2, [[1.0, 2.0], [3.0, 4.0]],
      List.forall_mem_cons.2 ⟨rfl, List.forall_mem_singleton.2 rfl⟩⟩
    let s' : Store := .ofList [("m", .matrix m), ("x", .scalar 1.0)]
    let t : Tree := .assign "y" (.sum (.determinant (.variable "m")) (.signed "-" (.variable "x")))
    s.Alike s' ∧
    ((∃ v w, (t.eval s).1 = .ok v ∧ (t.eval s').1 = .ok w ∧ v.Alike w) ∨
      ∃ f, (t.eval s).1 = .error f ∧ (t.eval s').1 = .error f) ∧
    (t.eval s).2.Alike (t.eval s').2 := by
  intro s m s' t
  have h : s.Alike s' := .cons ⟨rfl, .matrix rfl⟩ (.cons ⟨rfl, .scalar _ _⟩ .nil)
  exact ⟨h, eval_of_alike t h⟩

end Tree

end MatrixCalc
