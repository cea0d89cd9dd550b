import MatrixCalc.Proofs.Source.Grammar
import MatrixCalc.Source.Machine

/-!
# The machine accepts every sentence

A run over the word of a derivation is computed along the derivation, in any context and on any
level: from `operand c level`, the word of an operand with the tree `t` leads to
`complete c (level.fill t)` (`run_signed`, `run_atom`), and on an empty level the word of an
expression leads to its tree (`run_expression`).

A statement begins in the state `start`, which keeps open whether a name is assigned. `State.settled`
forgets that, and a run from the settled state is matched from `start` (`run_of_settled`).
-/

namespace MatrixCalc

open Grammar

namespace State

/-- The state behind a word, if the machine takes all of it. -/
abbrev run (s : State) (w : List Token) : Option State := w.foldlM State.step s

theorem run_cons_of_step {s s' : State} {t : Token} (h : s.step t = some s') (w : List Token) :
    s.run (t :: w) = s'.run w := by
  unfold run
  rw [List.foldlM_cons, h]
  rfl

theorem run_append_of_run {s s' : State} {u : List Token} (h : s.run u = some s')
    (w : List Token) : s.run (u ++ w) = s'.run w := by
  unfold run at *
  rw [List.foldlM_append, h]
  rfl

mutual
theorem run_expression {w : List Token} {t : Tree} : Expression w t → ∀ c : Context,
    (State.operand c .empty).run w = some (.complete c t)
  | .sum hl hr, c => by
    rw [run_append_of_run (run_expression hl c), run_cons_of_step rfl, run_signed hr]
    rfl
  | .subtract hl hr, c => by
    rw [run_append_of_run (run_expression hl c), run_cons_of_step rfl, run_signed hr]
    rfl
  | .signed hs, c => run_signed hs c .empty
theorem run_signed {w : List Token} {t : Tree} : Signed w t → ∀ (c : Context) (level : Level),
    (State.operand c level).run w = some (.complete c (level.fill t))
  | .plus hs, c, level => by
    rw [run_cons_of_step rfl, run_signed hs]
    rfl
  | .minus hs, c, level => by
    rw [run_cons_of_step rfl, run_signed hs]
    rfl
  | .atom ha, c, level => run_atom ha c level
theorem run_atom {w : List Token} {t : Tree} : Atom w t → ∀ (c : Context) (level : Level),
    (State.operand c level).run w = some (.complete c (level.fill t))
  | .number _, _, _ => rfl
  | .variable _, _, _ => rfl
  | .group he, c, level => by
    rw [List.cons_append, run_cons_of_step rfl, run_append_of_run (run_expression he _)]
    rfl
  | .determinant he, c, level => by
    rw [List.cons_append, List.cons_append, run_cons_of_step rfl, run_cons_of_step rfl,
      run_append_of_run (run_expression he _)]
    rfl
  | .emptyBracket, _, _ => rfl
  | .bracket hm, c, level => by
    obtain ⟨init, last, rfl, hs⟩ := run_members hm c level .bracket (fun _ _ => rfl)
    rw [List.cons_append, run_cons_of_step rfl, run_append_of_run hs, run_cons_of_step rfl,
      List.reverse_reverse]
    rfl
  | .emptyBrace, _, _ => rfl
  | .brace hm, c, level => by
    obtain ⟨init, last, rfl, hs⟩ := run_members hm c level .brace (fun _ _ => rfl)
    rw [List.cons_append, run_cons_of_step rfl, run_append_of_run hs, run_cons_of_step rfl,
      List.reverse_reverse]
    rfl
theorem run_members {w : List Token} {ts : List Tree} : Members w ts →
    ∀ (c : Context) (level : Level) (opening : List Tree → Opening),
      (∀ ms e, (opening ms).comma? e = some (opening (e :: ms))) →
      ∃ init last, ts = init ++ [last] ∧
        (State.operand (c.push level (opening [])) .empty).run w =
          some (.complete (c.push level (opening init.reverse)) last)
  | .one he, _, _, _, _ => ⟨[], _, rfl, run_expression he _⟩
  | .more hm he, c, level, opening, ho => by
    obtain ⟨init, last, rfl, hs⟩ := run_members hm c level opening ho
    refine ⟨_, _, rfl, ?_⟩
    have hcomma : (State.complete (c.push level (opening init.reverse)) last).step .comma =
        some (.operand (c.push level (opening (last :: init.reverse))) .empty) := by
      show (((opening init.reverse).comma? last).map _) = _
      rw [ho]
      rfl
    rw [run_append_of_run hs, run_cons_of_step hcomma, run_expression he, List.reverse_append,
      List.reverse_singleton, List.singleton_append]
end

/-! ## Statements -/

/-- The state in which a name alone has been read as an expression. -/
def settled : State → State
  | .start => .operand ⟨none, []⟩ .empty
  | .named x => .complete ⟨none, []⟩ (.variable x)
  | s => s

theorem settled_of_stepOperand (c : Context) (level : Level) {t : Token} {s : State}
    (h : stepOperand c level t = some s) : s.settled = s := by
  unfold stepOperand at h
  split at h
  case h_9 =>
    split at h
    · obtain ⟨a, -, rfl⟩ := Option.map_eq_some_iff.1 h
      rfl
    · cases h
  all_goals
    cases h
    rfl

theorem settled_of_stepComplete (c : Context) (e : Tree) {t : Token} {s : State}
    (h : stepComplete c e t = some s) : s.settled = s := by
  unfold stepComplete at h
  split at h
  · cases h
    rfl
  · cases h
    rfl
  · split at h
    · cases h
    · split at h
      · obtain ⟨a, -, rfl⟩ := Option.map_eq_some_iff.1 h
        rfl
      · obtain ⟨a, -, rfl⟩ := Option.map_eq_some_iff.1 h
        rfl

/-- A step of the settled state is matched by a step of the state. -/
theorem step_of_settled {s s' : State} {t : Token} (h : s.settled.step t = some s') :
    ∃ s₁, s.step t = some s₁ ∧ s₁.settled = s' := by
  cases s with
  | start =>
    have hs : s'.settled = s' := settled_of_stepOperand _ _ h
    cases t with
    | name x => exact ⟨.named x, rfl, Option.some.inj h⟩
    | _ => exact ⟨s', h, hs⟩
  | named x =>
    have hs : s'.settled = s' := settled_of_stepComplete _ _ h
    cases t with
    | equals => cases h
    | _ => exact ⟨s', h, hs⟩
  | operand c level => exact ⟨s', h, settled_of_stepOperand c level h⟩
  | keyword c level =>
    cases t with
    | openParen =>
      cases h
      exact ⟨_, rfl, rfl⟩
    | _ => cases h
  | complete c e => exact ⟨s', h, settled_of_stepComplete c e h⟩

/-- A run of the settled state is matched by a run of the state. -/
theorem run_of_settled {s s' : State} {w : List Token} (h : s.settled.run w = some s') :
    ∃ s₁, s.run w = some s₁ ∧ s₁.settled = s' := by
  induction w generalizing s with
  | nil => exact ⟨s, rfl, Option.some.inj h⟩
  | cons t w ih =>
    unfold run at h
    rw [List.foldlM_cons] at h
    obtain ⟨s₁, h₁, h₂⟩ := Option.bind_eq_some_iff.1 h
    obtain ⟨s₂, hs, rfl⟩ := step_of_settled h₁
    obtain ⟨s₃, hr, hs₃⟩ := ih h₂
    exact ⟨s₃, by rw [run_cons_of_step hs, hr], hs₃⟩

theorem finish?_of_settled {s : State} {e : Tree} (h : s.settled = .complete ⟨none, []⟩ e) :
    s.finish? = some (.print e) := by
  cases s with
  | named x =>
    cases h
    rfl
  | complete c e =>
    cases h
    rfl
  | _ => cases h

/-- The machine accepts every statement. -/
theorem run_statement {w : List Token} {t : Tree} (h : Statement w t) :
    ∃ s, State.start.run w = some s ∧ s.finish? = some t := by
  cases h with
  | @assign x w t he =>
    refine ⟨.complete ⟨some x, []⟩ t, ?_, rfl⟩
    rw [run_cons_of_step rfl, run_cons_of_step rfl, run_expression he]
  | print he =>
    obtain ⟨s, hs, hsettled⟩ := run_of_settled (s := .start) (run_expression he ⟨none, []⟩)
    exact ⟨s, hs, finish?_of_settled hsettled⟩

/-! ## Programs -/

theorem closeEmpty?_separator {t : Token} (h : t.isSeparator = true) (o : Opening) :
    o.closeEmpty? t = none := by
  unfold Opening.closeEmpty?
  split
  · cases h
  · cases h
  · rfl

theorem close?_separator {t : Token} (h : t.isSeparator = true) (o : Opening) (e : Tree) :
    o.close? t e = none := by
  unfold Opening.close?
  split <;> first | cases h | rfl

/-- A statement does not go on with a separator. -/
theorem step_separator {t : Token} (h : t.isSeparator = true) (s : State) : s.step t = none := by
  have hoperand : ∀ c level, stepOperand c level t = none := by
    intro c level
    unfold stepOperand
    split
    case h_9 =>
      split
      · rw [closeEmpty?_separator h]
        rfl
      · rfl
    all_goals cases h
  have hcomplete : ∀ c e, stepComplete c e t = none := by
    intro c e
    unfold stepComplete
    split
    · cases h
    · cases h
    · split
      · rfl
      · rw [if_neg (by rintro rfl; cases h), close?_separator h]
        rfl
  cases s with
  | start => cases t with
    | semicolon | lineEnd => exact hoperand ⟨none, []⟩ .empty
    | _ => cases h
  | named x => cases t with
    | semicolon | lineEnd => exact hcomplete ⟨none, []⟩ (.variable x)
    | _ => cases h
  | operand c level => exact hoperand c level
  | keyword c level => cases t with
    | semicolon | lineEnd => rfl
    | _ => cases h
  | complete c e => exact hcomplete c e

end State

namespace ProgramState

/-- The state behind a word, if the machine takes all of it. -/
abbrev run (p : ProgramState) (w : List Token) : Option ProgramState := w.foldlM ProgramState.step p

/-- Inside a statement, a program is read as the statement is. -/
theorem run_of_state_run {s s' : State} {w : List Token} (h : s.run w = some s')
    (done : List Tree) : run ⟨done, s⟩ w = some ⟨done, s'⟩ := by
  induction w generalizing s with
  | nil =>
    cases h
    rfl
  | cons t w ih =>
    unfold State.run at h
    rw [List.foldlM_cons] at h
    obtain ⟨s₁, h₁, h₂⟩ := Option.bind_eq_some_iff.1 h
    have ht : ¬ t.isSeparator = true := by
      intro hc
      rw [State.step_separator hc] at h₁
      cases h₁
    have hstep : step ⟨done, s⟩ t = some ⟨done, s₁⟩ := by
      unfold step
      rw [if_neg ht]
      dsimp only
      rw [h₁]
      rfl
    unfold run
    rw [List.foldlM_cons, hstep]
    exact ih h₂

theorem endStatement?_of_finish? {s : State} {t : Tree} (h : s.finish? = some t)
    (done : List Tree) : endStatement? ⟨done, s⟩ = some ⟨t :: done, .start⟩ := by
  unfold endStatement?
  dsimp only
  split
  · cases h
  · rw [h]
    rfl

/-- A slot is read and may end. -/
theorem run_slot {w : List Token} {ts : List Tree} (h : Slot w ts) (done : List Tree) :
    ∃ p, run ⟨done, .start⟩ w = some p ∧
      p.endStatement? = some ⟨ts.reverse ++ done, .start⟩ := by
  cases h with
  | vacant => exact ⟨_, rfl, rfl⟩
  | filled hs =>
    obtain ⟨s, hr, hf⟩ := State.run_statement hs
    exact ⟨_, run_of_state_run hr done, endStatement?_of_finish? hf done⟩

theorem run_ended {w : List Token} {ts : List Tree} (h : Ended w ts) :
    run start w = some ⟨ts.reverse, .start⟩ := by
  induction h with
  | nil => rfl
  | more _ hs ht ih =>
    obtain ⟨p, hp, he⟩ := run_slot hs _
    unfold run at *
    rw [List.foldlM_append, ih]
    show List.foldlM step _ _ = _
    rw [List.foldlM_append, hp, List.reverse_append, ← he]
    show List.foldlM step p [_] = _
    rw [List.foldlM_cons]
    unfold step
    rw [if_pos ht]
    exact bind_pure _

/-- The machine accepts every program. -/
theorem run_program {w : List Token} {ts : List Tree} (h : Program w ts) :
    ∃ p, run start w = some p ∧ p.finish? = some ts := by
  cases h with
  | mk he hs =>
    obtain ⟨p, hp, hend⟩ := run_slot hs _
    refine ⟨p, ?_, ?_⟩
    · unfold run
      rw [List.foldlM_append, show List.foldlM step start _ = _ from run_ended he]
      exact hp
    · unfold finish?
      rw [hend]
      simp

end ProgramState

end MatrixCalc
