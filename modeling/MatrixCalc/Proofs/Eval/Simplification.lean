import Mathlib.Logic.Relation
import MatrixCalc.Proofs.Decimal.Negation
import MatrixCalc.Proofs.Eval.Effects
import MatrixCalc.Proofs.Eval.Numeric

/-!
# Simplification of signs and groups

Groups, signs other than minus, and two minus signs in a row can be deleted anywhere in a tree without a
change in what it evaluates to (`eval_of_deletions`), as long as no text is negated: the store binds no
text, and the tree prints nothing.

1. `Deletes` is one deletion at any depth. It leaves the outcome alone (`Deletes.eval_eq`): two
   negations of a scalar, of a list and of a matrix cancel (`Value.signed_minus_twice`), and what is
   evaluated around the place goes the same way.
2. `simplify` deletes from the leaves upwards all that can be deleted. Deletions lead there
   (`reaches_simplify`), nothing is left to delete (`isSimple_simplify`), and deletions in any other
   order end in the same tree (`Reaches.eq_simplify`), because none changes what `simplify` makes of
   the tree (`Deletes.simplify_eq`).
-/

namespace MatrixCalc

open Relation

/-! ## Negation of values -/

theorem Matrix.negate_negate (m : Matrix) : m.negate.negate = m := by
  have hrow : ∀ row : List Float, (row.map (· * -1.0)).map (· * -1.0) = row := by
    intro row
    rw [List.map_map]
    refine (List.map_congr_left fun x _ => ?_).trans (List.map_id row)
    show x * -1.0 * -1.0 = x
    rw [Double.mul_neg_one, Double.mul_neg_one, Double.neg_neg]
  refine Matrix.ext rfl ?_
  show (m.entries.map _).map _ = m.entries
  rw [List.map_map]
  exact (List.map_congr_left fun row _ => hrow row).trans (List.map_id _)

namespace Value

/-- Two minus signs cancel on all values but texts. -/
theorem signed_minus_twice {v : Value} (h : v.IsNumeric) :
    (v.signed "-").bind (Value.signed "-") = .ok v := by
  cases v with
  | scalar x =>
    show Except.ok (Value.scalar (-(-x))) = _
    rw [Double.neg_neg]
  | list xs =>
    show Except.ok (Value.list ((xs.map fun x => -x).map fun x => -x)) = _
    have hitems : (xs.map fun x => -x).map (fun x => -x) = xs := by
      rw [List.map_map]
      exact (List.map_congr_left fun x _ => Double.neg_neg x).trans (List.map_id xs)
    rw [hitems]
  | matrix m =>
    show Except.ok (Value.matrix m.negate.negate) = _
    rw [m.negate_negate]
  | text s => exact absurd rfl h

theorem signed_of_ne {sign : String} (h : sign ≠ "-") : Value.signed sign = .ok := by
  funext v
  exact if_neg h

end Value

namespace Outcome

variable {α β : Type} {P : α → Prop} {o : Outcome α}

theorem apply_ok (o : Outcome α) : o.apply .ok = o := by
  obtain ⟨r, s⟩ := o
  cases r <;> rfl

/-- What goes on with a result matters only for the results and stores that there are. -/
theorem IsNumeric.andThen_congr {f g : α → Store → Outcome β} (h : o.IsNumeric P)
    (hfg : ∀ a s, P a → s.IsNumeric → f a s = g a s) : o.andThen f = o.andThen g := by
  obtain ⟨r, s⟩ := o
  cases r with
  | ok a => exact hfg a s (h.1 a rfl) h.2
  | error e => rfl

end Outcome

namespace Tree

/-! ## Deletions -/

/-- One group, sign other than minus, or pair of minus signs in a row is deleted somewhere. -/
inductive Deletes : Tree → Tree → Prop where
  | group (t : Tree) : Deletes (.group t) t
  | sign {sign : String} (h : sign ≠ "-") (t : Tree) : Deletes (.signed sign t) t
  | pair (t : Tree) : Deletes (.signed "-" (.signed "-" t)) t
  | inSigned (sign : String) {t u : Tree} : Deletes t u → Deletes (.signed sign t) (.signed sign u)
  | inGroup {t u : Tree} : Deletes t u → Deletes (.group t) (.group u)
  | inSumLeft {t u : Tree} (r : Tree) : Deletes t u → Deletes (.sum t r) (.sum u r)
  | inSumRight (l : Tree) {t u : Tree} : Deletes t u → Deletes (.sum l t) (.sum l u)
  | inSubtractLeft {t u : Tree} (r : Tree) : Deletes t u → Deletes (.subtract t r) (.subtract u r)
  | inSubtractRight (l : Tree) {t u : Tree} : Deletes t u → Deletes (.subtract l t) (.subtract l u)
  | inArray (before : List Tree) {t u : Tree} (after : List Tree) : Deletes t u →
    Deletes (.array (before ++ t :: after)) (.array (before ++ u :: after))
  | inMatrix (before : List Tree) {t u : Tree} (after : List Tree) : Deletes t u →
    Deletes (.matrix (before ++ t :: after)) (.matrix (before ++ u :: after))
  | inDeterminant {t u : Tree} : Deletes t u → Deletes (.determinant t) (.determinant u)
  | inAssign (name : String) {t u : Tree} : Deletes t u → Deletes (.assign name t) (.assign name u)
  | inPrint {t u : Tree} : Deletes t u → Deletes (.print t) (.print u)

/-- Deletions lead from the one tree to the other. -/
abbrev Reaches : Tree → Tree → Prop := ReflTransGen Deletes

/-- Nothing can be deleted. -/
def IsSimple (t : Tree) : Prop := ∀ u, ¬ Deletes t u

theorem anyHasPrint_append (ts us : List Tree) :
    anyHasPrint (ts ++ us) = (anyHasPrint ts || anyHasPrint us) := by
  rw [anyHasPrint_eq_any, anyHasPrint_eq_any, anyHasPrint_eq_any, List.any_append]

theorem Deletes.hasPrint_eq {t u : Tree} (h : Deletes t u) : u.hasPrint = t.hasPrint := by
  induction h with
  | group t => rfl
  | sign h t => rfl
  | pair t => rfl
  | inSigned sign _ ih => exact ih
  | inGroup _ ih => exact ih
  | inSumLeft r _ ih => exact congrArg (· || r.hasPrint) ih
  | inSumRight l _ ih => exact congrArg (l.hasPrint || ·) ih
  | inSubtractLeft r _ ih => exact congrArg (· || r.hasPrint) ih
  | inSubtractRight l _ ih => exact congrArg (l.hasPrint || ·) ih
  | inArray before after _ ih =>
    rw [hasPrint, hasPrint, anyHasPrint_append, anyHasPrint_append, anyHasPrint, anyHasPrint, ih]
  | inMatrix before after _ ih =>
    rw [hasPrint, hasPrint, anyHasPrint_append, anyHasPrint_append, anyHasPrint, anyHasPrint, ih]
  | inDeterminant _ ih => exact ih
  | inAssign name _ ih => exact ih
  | inPrint _ _ => rfl

/-- One member can be exchanged for another one that goes the same way from every store. -/
theorem evalAll_exchange {before : List Tree} (hbefore : anyHasPrint before = false) {t u : Tree}
    (h : ∀ s : Store, s.IsNumeric → u.eval s = t.eval s) (after : List Tree) {s : Store}
    (hs : s.IsNumeric) : evalAll (before ++ u :: after) s = evalAll (before ++ t :: after) s := by
  induction before generalizing s with
  | nil => rw [List.nil_append, List.nil_append, evalAll, evalAll, h s hs]
  | cons b before ih =>
    obtain ⟨hb, hbefore⟩ := Bool.or_eq_false_iff.1 hbefore
    rw [List.cons_append, List.cons_append, evalAll, evalAll]
    refine (eval_isNumeric b hb hs).andThen_congr fun _ _ _ hs => ?_
    rw [ih hbefore hs]

/-- A deletion leaves the outcome alone. -/
theorem Deletes.eval_eq {t u : Tree} (h : Deletes t u) (ht : t.hasPrint = false) {s : Store}
    (hs : s.IsNumeric) : u.eval s = t.eval s := by
  induction h generalizing s with
  | group t => rfl
  | sign h t => rw [eval, Value.signed_of_ne h, Outcome.apply_ok]
  | pair t =>
    rw [eval, eval, Outcome.apply_apply]
    have hcancel := (eval_isNumeric t ht hs).andThen_congr
      (f := fun v s => ((v.signed "-").bind (Value.signed "-"), s)) (g := fun v s => (.ok v, s))
      fun v s hv _ => by rw [Value.signed_minus_twice hv]
    exact (hcancel.trans (Outcome.apply_ok _)).symm
  | inSigned sign _ ih => rw [eval, eval, ih ht hs]
  | inGroup _ ih => rw [eval, eval, ih ht hs]
  | inSumLeft r _ ih => rw [eval, eval, ih (Bool.or_eq_false_iff.1 ht).1 hs]
  | inSumRight l _ ih =>
    obtain ⟨hl, hr⟩ := Bool.or_eq_false_iff.1 ht
    rw [eval, eval]
    refine (eval_isNumeric l hl hs).andThen_congr fun _ _ _ hs => ?_
    rw [ih hr hs]
  | inSubtractLeft r _ ih => rw [eval, eval, ih (Bool.or_eq_false_iff.1 ht).1 hs]
  | inSubtractRight l _ ih =>
    obtain ⟨hl, hr⟩ := Bool.or_eq_false_iff.1 ht
    rw [eval, eval]
    refine (eval_isNumeric l hl hs).andThen_congr fun _ _ _ hs => ?_
    rw [ih hr hs]
  | inArray before after _ ih =>
    rw [hasPrint, anyHasPrint_append, Bool.or_eq_false_iff] at ht
    have hmember := fun s => ih (s := s) (Bool.or_eq_false_iff.1 ht.2).1
    rw [eval, eval, evalAll_exchange ht.1 hmember after hs]
  | inMatrix before after _ ih =>
    rw [hasPrint, anyHasPrint_append, Bool.or_eq_false_iff] at ht
    have hmember := fun s => ih (s := s) (Bool.or_eq_false_iff.1 ht.2).1
    rw [eval, eval, evalAll_exchange ht.1 hmember after hs]
  | inDeterminant _ ih => rw [eval, eval, ih ht hs]
  | inAssign name _ ih => rw [eval, eval, ih ht hs]
  | inPrint _ _ => cases ht

/-- Any number of deletions leaves the outcome alone. -/
theorem Reaches.eval_eq {t u : Tree} (h : Reaches t u) (ht : t.hasPrint = false) {s : Store}
    (hs : s.IsNumeric) : u.eval s = t.eval s := by
  induction h using ReflTransGen.head_induction_on with
  | refl => rfl
  | head hstep _ ih => rw [ih (hstep.hasPrint_eq.trans ht), hstep.eval_eq ht hs]

/-! ## The simplified tree -/

/-- The tree behind a minus sign, which cancels with one at its root. -/
def minus : Tree → Tree
  | .signed sign t => if sign = "-" then t else .signed "-" (.signed sign t)
  | t => .signed "-" t

mutual
/-- The tree without groups, without signs other than minus, and without minus signs in a row. -/
def simplify : Tree → Tree
  | .number text => .number text
  | .variable name => .variable name
  | .signed sign t => if sign = "-" then t.simplify.minus else t.simplify
  | .group t => t.simplify
  | .sum l r => .sum l.simplify r.simplify
  | .subtract l r => .subtract l.simplify r.simplify
  | .array ts => .array (simplifyAll ts)
  | .matrix ts => .matrix (simplifyAll ts)
  | .determinant t => .determinant t.simplify
  | .assign name t => .assign name t.simplify
  | .print t => .print t.simplify
  | .foreign type => .foreign type
/-- The trees, each simplified. -/
def simplifyAll : List Tree → List Tree
  | [] => []
  | t :: ts => t.simplify :: simplifyAll ts
end

theorem simplifyAll_eq_map (ts : List Tree) : simplifyAll ts = ts.map simplify := by
  induction ts with
  | nil => rfl
  | cons t ts ih => rw [simplifyAll, ih, List.map_cons]

/-! ### Nothing is left to delete -/

theorem IsSimple.of_signed {sign : String} {t : Tree} (h : IsSimple (.signed sign t)) :
    sign = "-" ∧ IsSimple t ∧ ∀ sign' u, t ≠ .signed sign' u := by
  refine ⟨?_, fun u hu => h _ (.inSigned sign hu), ?_⟩
  · by_contra hsign
    exact h t (.sign hsign t)
  · rintro sign' u rfl
    by_cases hsign' : sign' = "-"
    · by_cases hsign : sign = "-"
      · subst hsign hsign'
        exact h u (.pair u)
      · exact h _ (.sign hsign _)
    · exact h _ (.inSigned sign (.sign hsign' u))

theorem isSimple_signed_minus {t : Tree} (h : IsSimple t) (hroot : ∀ sign u, t ≠ .signed sign u) :
    IsSimple (.signed "-" t) := by
  intro u hu
  cases hu with
  | sign hne t => exact hne rfl
  | pair u => exact hroot _ _ rfl
  | inSigned _ hstep => exact h _ hstep

theorem minus_of_ne {t : Tree} (h : ∀ sign u, t ≠ .signed sign u) : t.minus = .signed "-" t := by
  cases t with
  | signed sign u => exact absurd rfl (h sign u)
  | _ => rfl

theorem IsSimple.minus {t : Tree} (h : IsSimple t) : IsSimple t.minus := by
  cases t with
  | signed sign u =>
    obtain ⟨rfl, hu, -⟩ := h.of_signed
    exact hu
  | _ => exact isSimple_signed_minus h nofun

theorem IsSimple.minus_minus {t : Tree} (h : IsSimple t) : t.minus.minus = t := by
  cases t with
  | signed sign u =>
    obtain ⟨rfl, -, hroot⟩ := h.of_signed
    exact minus_of_ne hroot
  | _ => rfl

theorem isSimple_array {ts : List Tree} (h : ∀ t ∈ ts, IsSimple t) : IsSimple (.array ts) := by
  intro u hu
  cases hu with
  | inArray before after hstep => exact h _ (by simp) _ hstep

theorem isSimple_matrix {ts : List Tree} (h : ∀ t ∈ ts, IsSimple t) : IsSimple (.matrix ts) := by
  intro u hu
  cases hu with
  | inMatrix before after hstep => exact h _ (by simp) _ hstep

theorem isSimple_simplify (t : Tree) : IsSimple t.simplify := by
  induction t using Tree.induction with
  | number text => exact nofun
  | named name => exact nofun
  | foreign _ => exact nofun
  | signed sign t ih =>
    rw [simplify]
    split
    · exact ih.minus
    · exact ih
  | group t ih => exact ih
  | sum l r ihl ihr =>
    intro u hu
    cases hu with
    | inSumLeft _ hstep => exact ihl _ hstep
    | inSumRight _ hstep => exact ihr _ hstep
  | subtract l r ihl ihr =>
    intro u hu
    cases hu with
    | inSubtractLeft _ hstep => exact ihl _ hstep
    | inSubtractRight _ hstep => exact ihr _ hstep
  | array ts ih =>
    rw [simplify, simplifyAll_eq_map]
    exact isSimple_array (List.forall_mem_map.2 ih)
  | matrix ts ih =>
    rw [simplify, simplifyAll_eq_map]
    exact isSimple_matrix (List.forall_mem_map.2 ih)
  | determinant t ih =>
    intro u hu
    cases hu with
    | inDeterminant hstep => exact ih _ hstep
  | assign name t ih =>
    intro u hu
    cases hu with
    | inAssign _ hstep => exact ih _ hstep
  | print t ih =>
    intro u hu
    cases hu with
    | inPrint hstep => exact ih _ hstep

/-! ### Deletions lead there -/

theorem reaches_minus (t : Tree) : Reaches (.signed "-" t) t.minus := by
  cases t with
  | signed sign u =>
    rw [minus]
    by_cases hsign : sign = "-"
    · subst hsign
      exact .single (.pair u)
    · rw [if_neg hsign]
  | _ => exact .refl

/-- Deletions in the members of a literal, one member after the other. -/
theorem reaches_members {literal : List Tree → Tree}
    (hliteral : ∀ before t u after, Deletes t u →
      Deletes (literal (before ++ t :: after)) (literal (before ++ u :: after)))
    {ts : List Tree} (h : ∀ t ∈ ts, Reaches t t.simplify) (before : List Tree) :
    Reaches (literal (before ++ ts)) (literal (before ++ simplifyAll ts)) := by
  induction ts generalizing before with
  | nil => exact .refl
  | cons t ts ih =>
    rw [List.forall_mem_cons] at h
    have hhead : Reaches (literal (before ++ t :: ts)) (literal (before ++ t.simplify :: ts)) :=
      h.1.lift (fun u => literal (before ++ u :: ts)) fun u v => hliteral before u v ts
    have htail := ih h.2 (before ++ [t.simplify])
    rw [List.append_assoc, List.append_assoc] at htail
    exact hhead.trans htail

theorem reaches_simplify (t : Tree) : Reaches t t.simplify := by
  induction t using Tree.induction with
  | number text => exact .refl
  | named name => exact .refl
  | foreign _ => exact .refl
  | signed sign t ih =>
    rw [simplify]
    split
    · rename_i hsign
      subst hsign
      exact (ih.lift (Tree.signed "-") fun _ _ => .inSigned "-").trans (reaches_minus _)
    · rename_i hsign
      exact .head (.sign hsign t) ih
  | group t ih => exact .head (.group t) ih
  | sum l r ihl ihr =>
    exact (ihl.lift (Tree.sum · r) fun _ _ => .inSumLeft r).trans
      (ihr.lift (Tree.sum l.simplify) fun _ _ => .inSumRight _)
  | subtract l r ihl ihr =>
    exact (ihl.lift (Tree.subtract · r) fun _ _ => .inSubtractLeft r).trans
      (ihr.lift (Tree.subtract l.simplify) fun _ _ => .inSubtractRight _)
  | array ts ih => exact reaches_members (fun before _ _ after => .inArray before after) ih []
  | matrix ts ih => exact reaches_members (fun before _ _ after => .inMatrix before after) ih []
  | determinant t ih => exact ih.lift Tree.determinant fun _ _ => .inDeterminant
  | assign name t ih => exact ih.lift (Tree.assign name) fun _ _ => .inAssign name
  | print t ih => exact ih.lift Tree.print fun _ _ => .inPrint

/-! ### No other order leads elsewhere -/

theorem Deletes.simplify_eq {t u : Tree} (h : Deletes t u) : u.simplify = t.simplify := by
  induction h with
  | group t => rfl
  | sign h t => rw [simplify, if_neg h]
  | pair t =>
    rw [simplify, simplify, if_pos rfl, if_pos rfl, (isSimple_simplify t).minus_minus]
  | inSigned sign _ ih => rw [simplify, simplify, ih]
  | inGroup _ ih => exact ih
  | inSumLeft r _ ih => rw [simplify, simplify, ih]
  | inSumRight l _ ih => rw [simplify, simplify, ih]
  | inSubtractLeft r _ ih => rw [simplify, simplify, ih]
  | inSubtractRight l _ ih => rw [simplify, simplify, ih]
  | inArray before after _ ih =>
    rw [simplify, simplify, simplifyAll_eq_map, simplifyAll_eq_map, List.map_append, List.map_append,
      List.map_cons, List.map_cons, ih]
  | inMatrix before after _ ih =>
    rw [simplify, simplify, simplifyAll_eq_map, simplifyAll_eq_map, List.map_append, List.map_append,
      List.map_cons, List.map_cons, ih]
  | inDeterminant _ ih => rw [simplify, simplify, ih]
  | inAssign name _ ih => rw [simplify, simplify, ih]
  | inPrint _ ih => rw [simplify, simplify, ih]

theorem IsSimple.simplify_eq {t : Tree} (h : IsSimple t) : t.simplify = t := by
  rcases (reaches_simplify t).cases_head with heq | ⟨u, hstep, -⟩
  · exact heq.symm
  · exact absurd hstep (h u)

theorem Reaches.eq_simplify {t u : Tree} (h : Reaches t u) (hu : IsSimple u) : u = t.simplify := by
  have hsame : u.simplify = t.simplify := by
    clear hu
    induction h with
    | refl => rfl
    | tail _ hstep ih => rw [hstep.simplify_eq, ih]
  rw [← hsame, hu.simplify_eq]

/-- **Simplification.** Of a tree that prints nothing, evaluated in a store that binds no text, groups,
signs other than minus and pairs of minus signs can be deleted in any order: the outcome stays, value
or fault, after each deletion. The deletions end in the simplified tree, and in no other one. -/
theorem eval_of_deletions {t : Tree} (ht : t.hasPrint = false) {s : Store} (hs : s.IsNumeric) :
    t.simplify.eval s = t.eval s ∧ (∀ u, Reaches t u ∧ IsSimple u ↔ u = t.simplify) ∧
      ∀ u, Reaches t u → u.eval s = t.eval s := by
  refine ⟨(reaches_simplify t).eval_eq ht hs, fun u => ⟨fun hu => hu.1.eq_simplify hu.2, ?_⟩,
    fun u hu => hu.eval_eq ht hs⟩
  rintro rfl
  exact ⟨reaches_simplify t, isSimple_simplify t⟩

theorem eval_of_deletions_matrix :
    let s : Store := .ofList [("m", .matrix (.zeros 2 2)), ("x", .list [1.0])]
    let t : Tree := .subtract (.signed "-" (.group (.signed "+" (.signed "-" (.variable "m")))))
      (.matrix [.group (.signed "-" (.variable "x")), .signed "-" (.signed "-" (.variable "y"))])
    t.hasPrint = false ∧ s.IsNumeric ∧
      t.simplify.eval s = t.eval s ∧ (∀ u, Reaches t u ∧ IsSimple u ↔ u = t.simplify) ∧
        ∀ u, Reaches t u → u.eval s = t.eval s := by
  intro s t
  have hs : s.IsNumeric := by
    refine (Store.isNumeric_empty.assign "m" ?_).assign "x" ?_
    · exact nofun
    · exact nofun
  exact ⟨rfl, hs, eval_of_deletions rfl hs⟩

end Tree

end MatrixCalc
