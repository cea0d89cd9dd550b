import MatrixCalc.Proofs.Session.Transcript
import MatrixCalc.Proofs.Source.OneStatement

/-!
# Asking for a value and evaluating a text

A text that is one statement can be evaluated as a program, or its value can be asked for. Both fail
together, with the same fault and without a trace, and otherwise differ only in what an expression
leaves behind (`valueOf_evalText`): evaluated, it is printed and its text recorded; asked for, it is
not.

1. The text is a program of that one statement, so its evaluation follows from that of the tree
   (`evalText_of_eval_ok`, `evalText_of_eval_error`).
2. So does the value that is asked for (`valueOf_of_assign`, `valueOf_of_print`).
3. Nothing below the root of a statement assigns, so a statement changes the store only by an
   assignment that succeeds.
-/

namespace MatrixCalc

namespace Session

variable {s : Session} {text : String} {t : Tree} {store : Store}

/-! ## Programs of one statement -/

theorem run_of_eval_ok {v : Value} (h : t.eval s.store = (.ok v, store)) :
    s.run t = (.ok v, { s with store }.record v) := by
  unfold run
  rw [h]

theorem run_of_eval_error {f : Fault} (h : t.eval s.store = (.error f, store)) :
    s.run t = (.error f, { s with store }) := by
  unfold run
  rw [h]

theorem evalText_of_eval_ok (hparse : parseProgram text = .ok [t]) {v : Value}
    (h : t.eval s.store = (.ok v, store)) :
    s.evalText text = (.ok (some v), { s with store }.record v) := by
  have hmerge : s.merge [t] = (.ok (), { s with store }.record v) := by
    show s.runAll [t] = _
    rw [runAll, run_of_eval_ok h]
    rfl
  unfold evalText
  rw [hparse]
  dsimp only
  rw [hmerge]
  rfl

theorem evalText_of_eval_error (hparse : parseProgram text = .ok [t]) {f : Fault}
    (h : t.eval s.store = (.error f, store)) :
    s.evalText text = (.error (.fault f), { s with store }) := by
  have hmerge : s.merge [t] = (.error f, { s with store }) := by
    show s.runAll [t] = _
    rw [runAll, run_of_eval_error h]
  unfold evalText
  rw [hparse]
  dsimp only
  rw [hmerge]

/-! ## Values that are asked for -/

theorem valueOf_of_assign {name : String} {e : Tree}
    (hparse : parseStatement text = .ok (.assign name e)) :
    s.valueOf text = ((s.run (.assign name e)).1.mapError .fault, (s.run (.assign name e)).2) := by
  unfold valueOf
  rw [hparse]

theorem valueOf_of_print {e : Tree} (hparse : parseStatement text = .ok (.print e)) :
    s.valueOf text = ((e.eval s.store).1.mapError .fault, { s with store := (e.eval s.store).2 }) := by
  unfold valueOf
  rw [hparse]

/-- **Asking and evaluating.** For a text that is one statement, in every session: both fail, with the
same fault, and the session stays as it was; or the statement is an assignment, and both give its value
and leave the same session; or it is an expression, whose value is given by the one, which leaves the
session as it was, and whose printed text is given and recorded by the other. -/
theorem valueOf_evalText (s : Session) (h : parseStatement text = .ok t) :
    (∃ f, s.valueOf text = (.error (.fault f), s) ∧ s.evalText text = (.error (.fault f), s)) ∨
    (∃ name e v, t = .assign name e ∧
      let s' : Session := ⟨s.store.assign name v, s.results ++ [v], some v⟩
      s.valueOf text = (.ok v, s') ∧ s.evalText text = (.ok (some v), s')) ∨
    ∃ e v, t = .print e ∧ s.valueOf text = (.ok v, s) ∧
      s.evalText text = (.ok (some (.text v.render)),
        ⟨s.store, s.results ++ [.text v.render], some (.text v.render)⟩) := by
  have hprogram := (parseStatement_eq_ok_iff_program.1 h).1
  have ht := isStatement_of_parseStatement h
  cases t with
  | assign name e =>
    rw [valueOf_of_assign h]
    have he := Tree.targets_of_isExpression e ht.2
    obtain ⟨v, -, hv⟩ | ⟨f, -, hf⟩ := Tree.eval_assign_of_targets name he s.store
    · rw [run_of_eval_ok hv, evalText_of_eval_ok hprogram hv]
      exact .inr (.inl ⟨name, e, v, rfl, rfl, rfl⟩)
    · rw [run_of_eval_error hf, evalText_of_eval_error hprogram hf]
      exact .inl ⟨f, rfl, rfl⟩
  | print e =>
    rw [valueOf_of_print h]
    have hs := Tree.eval_of_targets (Tree.targets_of_isExpression e ht) s.store
    cases he : e.eval s.store with
    | mk r store =>
      rw [he] at hs
      obtain rfl : store = s.store := hs
      cases r with
      | ok v =>
        have hprint : (Tree.print e).eval s.store = (.ok (.text v.render), s.store) := by
          rw [Tree.eval, he]
          rfl
        rw [evalText_of_eval_ok hprogram hprint]
        exact .inr (.inr ⟨e, v, rfl, rfl, rfl⟩)
      | error f =>
        have hprint : (Tree.print e).eval s.store = (.error f, s.store) := by
          rw [Tree.eval, he]
          rfl
        rw [evalText_of_eval_error hprogram hprint]
        exact .inl ⟨f, rfl, rfl⟩
  | _ => exact ht.elim

theorem valueOf_evalText_recorded :
    let s : Session := ⟨.ofList [("a", .list [1.0])], [.text "0"], none⟩
    let text := "-a # the list\r"
    let t : Tree := .print (.signed "-" (.variable "a"))
    parseStatement text = .ok t ∧
    ((∃ f, s.valueOf text = (.error (.fault f), s) ∧ s.evalText text = (.error (.fault f), s)) ∨
    (∃ name e v, t = .assign name e ∧
      let s' : Session := ⟨s.store.assign name v, s.results ++ [v], some v⟩
      s.valueOf text = (.ok v, s') ∧ s.evalText text = (.ok (some v), s')) ∨
    ∃ e v, t = .print e ∧ s.valueOf text = (.ok v, s) ∧
      s.evalText text = (.ok (some (.text v.render)),
        ⟨s.store, s.results ++ [.text v.render], some (.text v.render)⟩)) := by
  intro s text t
  have h : parseStatement text = .ok t := by
    unfold text t
    with_unfolding_all rfl
  exact ⟨h, valueOf_evalText s h⟩

end Session

end MatrixCalc
