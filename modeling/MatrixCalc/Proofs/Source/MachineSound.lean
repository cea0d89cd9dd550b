import MatrixCalc.Proofs.Source.Grammar
import MatrixCalc.Source.Machine

/-!
# The machine accepts only sentences

`State.Reads s w` says how the tokens `w` explain the state `s`: which of them are the sum and the
signs of each level, the members of each opening, the complete expression.

1. `Level.Reads.fill`: an operand behind what a level has read is an expression.
2. `State.Reads.step`: a token that the machine takes extends what it has read.
3. `State.Reads.finish`: a state in which a statement may end has read a statement.

`ProgramState.Reads` does the same for the statements of a program.
-/

namespace MatrixCalc

open Grammar

/-- The token of an operator. -/
def Operator.token : Operator → Token
  | .plus => .plus
  | .minus => .minus

/-- What a machine has read is extended by a run if it is extended by every step. -/
theorem reads_of_foldlM {σ : Type} {step : σ → Token → Option σ} {R : σ → List Token → Prop}
    (hstep : ∀ {s s' : σ} {w : List Token} {t : Token}, R s w → step s t = some s' → R s' (w ++ [t]))
    {s s' : σ} {u w : List Token} (hs : R s u) (h : w.foldlM step s = some s') :
    R s' (u ++ w) := by
  induction w generalizing s u with
  | nil =>
    cases h
    rwa [List.append_nil]
  | cons t w ih =>
    rw [List.foldlM_cons] at h
    obtain ⟨s₁, h₁, h₂⟩ := Option.bind_eq_some_iff.1 h
    have := ih (hstep hs h₁) h₂
    rwa [List.append_assoc] at this

/-! ## Levels -/

/-- The tokens of a sum on the left and of the operator behind it. -/
inductive LeftReads : Option (Tree × Operator) → List Token → Prop where
  | none : LeftReads none []
  | some {w : List Token} {e : Tree} (o : Operator) :
    Expression w e → LeftReads (some (e, o)) (w ++ [o.token])

/-- The tokens of a level before its operand. -/
def Level.Reads (l : Level) (w : List Token) : Prop :=
  ∃ u, LeftReads l.left u ∧ w = u ++ l.signs.reverse.map Operator.token

namespace Level

theorem reads_empty : empty.Reads [] := ⟨[], .none, rfl⟩

theorem Reads.eq_nil {w : List Token} (h : Reads ⟨none, []⟩ w) : w = [] := by
  obtain ⟨u, hu, rfl⟩ := h
  cases hu
  rfl

theorem Reads.sign {l : Level} {w : List Token} (h : l.Reads w) (o : Operator) :
    (l.sign o).Reads (w ++ [o.token]) := by
  obtain ⟨u, hu, rfl⟩ := h
  refine ⟨u, hu, ?_⟩
  unfold Level.sign
  simp

theorem reads_left {w : List Token} {e : Tree} (h : Expression w e) (o : Operator) :
    Reads ⟨some (e, o), []⟩ (w ++ [o.token]) := ⟨_, .some o h, by simp⟩

theorem signed_operator {w : List Token} {t : Tree} (o : Operator) (h : Signed w t) :
    Signed (o.token :: w) (.signed o.text t) := by
  cases o with
  | plus => exact .plus h
  | minus => exact .minus h

/-- Signs in front of a signed operand make a signed operand. -/
theorem signed_foldl (signs : List Operator) {w : List Token} {t : Tree} (h : Signed w t) :
    Signed (signs.reverse.map Operator.token ++ w)
      (signs.foldl (fun t o => .signed o.text t) t) := by
  induction signs generalizing w t with
  | nil => exact h
  | cons o signs ih =>
    have := ih (signed_operator o h)
    simpa using this

/-- An operand behind what a level has read is an expression. -/
theorem Reads.fill {l : Level} {w v : List Token} {t : Tree} (h : l.Reads w) (ht : Atom v t) :
    Expression (w ++ v) (l.fill t) := by
  obtain ⟨left, signs⟩ := l
  obtain ⟨u, hu, rfl⟩ := h
  have hs := signed_foldl signs (.atom ht)
  rw [List.append_assoc]
  cases hu with
  | none => exact .signed hs
  | some o he =>
    rw [List.append_assoc, List.singleton_append]
    cases o with
    | plus => exact .sum he hs
    | minus => exact .subtract he hs

end Level

/-! ## Openings -/

/-- The tokens of a bracket or a brace up to the member that is read, the last member first. -/
inductive ListReads (opening : Token) : List Tree → List Token → Prop where
  | first : ListReads opening [] [opening]
  | more {w : List Token} {ms : List Tree} :
    Members w ms.reverse → ListReads opening ms (opening :: w ++ [.comma])

theorem ListReads.members {opening : Token} {ms : List Tree} {w v : List Token} {e : Tree}
    (h : ListReads opening ms w) (he : Expression v e) :
    ∃ u, Members u (ms.reverse ++ [e]) ∧ w ++ v = opening :: u := by
  cases h with
  | first => exact ⟨v, .one he, rfl⟩
  | more hm => exact ⟨_, .more hm he, by simp⟩

theorem ListReads.next {opening : Token} {ms : List Tree} {w v : List Token} {e : Tree}
    (h : ListReads opening ms w) (he : Expression v e) :
    ListReads opening (e :: ms) (w ++ (v ++ [.comma])) := by
  obtain ⟨u, hu, hw⟩ := h.members he
  rw [← List.append_assoc, hw]
  exact .more (by rwa [List.reverse_cons])

theorem ListReads.eq_singleton {opening : Token} {w : List Token} (h : ListReads opening [] w) :
    w = [opening] := by
  cases h with
  | first => rfl
  | more hm => exact absurd rfl hm.ne_nil

namespace Opening

/-- The tokens of an opening up to the expression that is read inside it. -/
inductive Reads : Opening → List Token → Prop where
  | group : Reads .group [.openParen]
  | determinant : Reads .determinant [.det, .openParen]
  | bracket {w : List Token} {ms : List Tree} :
    ListReads .openBracket ms w → Reads (.bracket ms) w
  | brace {w : List Token} {ms : List Tree} : ListReads .openBrace ms w → Reads (.brace ms) w

theorem Reads.comma {o o' : Opening} {w v : List Token} {e : Tree} (h : o.Reads w)
    (he : Expression v e) (hc : o.comma? e = some o') : o'.Reads (w ++ (v ++ [.comma])) := by
  cases h with
  | group => cases hc
  | determinant => cases hc
  | bracket hl =>
    cases hc
    exact .bracket (hl.next he)
  | brace hl =>
    cases hc
    exact .brace (hl.next he)

/-- An opening that is closed behind its last expression is an operand. -/
theorem Reads.close {o : Opening} {w v : List Token} {t : Token} {e a : Tree} (h : o.Reads w)
    (he : Expression v e) (hc : o.close? t e = some a) : Atom (w ++ (v ++ [t])) a := by
  unfold close? at hc
  split at hc
  · cases hc
    cases h
    exact .group he
  · cases hc
    cases h
    exact .determinant he
  · cases hc
    cases h with
    | bracket hl =>
      obtain ⟨u, hu, hw⟩ := hl.members he
      rw [← List.append_assoc, hw]
      exact .bracket hu
  · cases hc
    cases h with
    | brace hl =>
      obtain ⟨u, hu, hw⟩ := hl.members he
      rw [← List.append_assoc, hw]
      exact .brace hu
  · cases hc

theorem Reads.closeEmpty {o : Opening} {w : List Token} {t : Token} {a : Tree} (h : o.Reads w)
    (hc : o.closeEmpty? t = some a) : Atom (w ++ [t]) a := by
  unfold closeEmpty? at hc
  split at hc
  · cases hc
    cases h with
    | bracket hl =>
      rw [hl.eq_singleton]
      exact .emptyBracket
  · cases hc
    cases h with
    | brace hl =>
      rw [hl.eq_singleton]
      exact .emptyBrace
  · cases hc

end Opening

/-! ## Contexts -/

/-- The tokens of a name that is assigned. -/
inductive TargetReads : Option String → List Token → Prop where
  | none : TargetReads none []
  | some (x : String) : TargetReads (some x) [.name x, .equals]

/-- The tokens of the openings around a level. -/
inductive FramesRead : List Frame → List Token → Prop where
  | nil : FramesRead [] []
  | cons {level : Level} {opening : Opening} {frames : List Frame} {u v w : List Token} :
    FramesRead frames u → level.Reads v → opening.Reads w →
      FramesRead (⟨level, opening⟩ :: frames) (u ++ (v ++ w))

/-- The tokens before a level. -/
def Context.Reads (c : Context) (w : List Token) : Prop :=
  ∃ u v, TargetReads c.target u ∧ FramesRead c.frames v ∧ w = u ++ v

namespace Context

theorem reads_top : Reads ⟨none, []⟩ [] := ⟨[], [], .none, .nil, rfl⟩

theorem reads_target (x : String) : Reads ⟨some x, []⟩ [.name x, .equals] :=
  ⟨_, [], .some x, .nil, rfl⟩

theorem Reads.push {c : Context} {level : Level} {opening : Opening} {u v w : List Token}
    (h : c.Reads u) (hl : level.Reads v) (ho : opening.Reads w) :
    (c.push level opening).Reads (u ++ (v ++ w)) := by
  obtain ⟨x, y, hx, hy, rfl⟩ := h
  exact ⟨x, y ++ (v ++ w), hx, .cons hy hl ho, List.append_assoc ..⟩

/-- The tokens before the innermost opening, and those of its level and its own. -/
theorem Reads.pop {target : Option String} {frame : Frame} {frames : List Frame} {w : List Token}
    (h : Reads ⟨target, frame :: frames⟩ w) : ∃ x y z, Reads ⟨target, frames⟩ x ∧
      frame.level.Reads y ∧ frame.opening.Reads z ∧ w = x ++ (y ++ z) := by
  obtain ⟨u, v, hu, hv, rfl⟩ := h
  cases hv with
  | cons hf hl ho => exact ⟨_, _, _, ⟨u, _, hu, hf, rfl⟩, hl, ho, (List.append_assoc ..).symm⟩

end Context

/-! ## States -/

namespace State

/-- The tokens that have been read of a statement. -/
inductive Reads : State → List Token → Prop where
  | start : Reads .start []
  | named (x : String) : Reads (.named x) [.name x]
  | operand {c : Context} {level : Level} {u v : List Token} :
    c.Reads u → level.Reads v → Reads (.operand c level) (u ++ v)
  | keyword {c : Context} {level : Level} {u v : List Token} :
    c.Reads u → level.Reads v → Reads (.keyword c level) (u ++ (v ++ [.det]))
  | complete {c : Context} {e : Tree} {u v : List Token} :
    c.Reads u → Expression v e → Reads (.complete c e) (u ++ v)

section Step

variable {c : Context} {level : Level} {u v : List Token} {t : Token} {s' : State}

theorem reads_open {opening : Opening} {w : List Token} (hc : c.Reads u) (hl : level.Reads v)
    (ho : opening.Reads w) :
    (State.operand (c.push level opening) .empty).Reads (u ++ (v ++ w)) := by
  have := Reads.operand (hc.push hl ho) Level.reads_empty
  rwa [List.append_nil] at this

/-- A token that is taken where an operand is due. -/
theorem reads_stepOperand (hc : c.Reads u) (hl : level.Reads v)
    (h : stepOperand c level t = some s') : s'.Reads (u ++ (v ++ [t])) := by
  unfold stepOperand at h
  split at h
  · cases h
    exact .complete hc (hl.fill (.number _))
  · cases h
    exact .complete hc (hl.fill (.variable _))
  · cases h
    exact .operand hc (hl.sign .plus)
  · cases h
    exact .operand hc (hl.sign .minus)
  · cases h
    exact reads_open hc hl .group
  · cases h
    exact reads_open hc hl (.bracket .first)
  · cases h
    exact reads_open hc hl (.brace .first)
  · cases h
    exact .keyword hc hl
  · -- only an opening that has just been opened can be closed here
    obtain ⟨target, frames⟩ := c
    split at h
    · rename_i hframes
      dsimp only at hframes
      subst hframes
      obtain ⟨a, ha, rfl⟩ := Option.map_eq_some_iff.1 h
      obtain ⟨x, y, z, hx, hy, hz, rfl⟩ := hc.pop
      rw [hl.eq_nil, List.nil_append, List.append_assoc, List.append_assoc]
      exact .complete hx (hy.fill (hz.closeEmpty ha))
    · cases h

/-- A token that is taken behind a complete expression. -/
theorem reads_stepComplete {e : Tree} (hc : c.Reads u) (he : Expression v e)
    (h : stepComplete c e t = some s') : s'.Reads (u ++ (v ++ [t])) := by
  unfold stepComplete at h
  split at h
  · cases h
    exact .operand hc (Level.reads_left he .plus)
  · cases h
    exact .operand hc (Level.reads_left he .minus)
  · obtain ⟨target, frames⟩ := c
    split at h
    · cases h
    · rename_i frame frames hframes
      dsimp only at hframes
      subst hframes
      obtain ⟨x, y, z, hx, hy, hz, rfl⟩ := hc.pop
      rw [List.append_assoc, List.append_assoc]
      split at h
      · rename_i ht
        subst ht
        obtain ⟨o, ho, rfl⟩ := Option.map_eq_some_iff.1 h
        exact reads_open hx hy (hz.comma he ho)
      · obtain ⟨a, ha, rfl⟩ := Option.map_eq_some_iff.1 h
        exact .complete hx (hy.fill (hz.close he ha))

end Step

/-- **Step.** A token that the machine takes extends what it has read. -/
theorem Reads.step {s s' : State} {w : List Token} {t : Token} (hs : s.Reads w)
    (h : s.step t = some s') : s'.Reads (w ++ [t]) := by
  cases hs with
  | start =>
    cases t with
    | name x =>
      cases h
      exact .named x
    | _ => exact reads_stepOperand Context.reads_top Level.reads_empty h
  | named x =>
    cases t with
    | equals =>
      cases h
      have := Reads.operand (Context.reads_target x) Level.reads_empty
      rwa [List.append_nil] at this
    | _ => exact reads_stepComplete Context.reads_top (.signed (.atom (.variable x))) h
  | operand hc hl =>
    rw [List.append_assoc]
    exact reads_stepOperand hc hl h
  | keyword hc hl =>
    rw [List.append_assoc, List.append_assoc]
    cases t with
    | openParen =>
      cases h
      exact reads_open hc hl .determinant
    | _ => cases h
  | complete hc he =>
    rw [List.append_assoc]
    exact reads_stepComplete hc he h

/-- A state in which a statement may end has read a statement. -/
theorem Reads.finish {s : State} {w : List Token} {t : Tree} (hs : s.Reads w)
    (h : s.finish? = some t) : Statement w t := by
  unfold finish? at h
  split at h
  · cases h
    cases hs
    exact .print (.signed (.atom (.variable _)))
  · cases h
    cases hs with
    | complete hc he =>
      obtain ⟨u, v, hu, hv, rfl⟩ := hc
      cases hv
      rw [List.append_nil]
      cases hu with
      | none => exact .print he
      | some x => exact .assign x he
  · cases h

/-- The machine accepts only statements. -/
theorem statement_of_run {w : List Token} {s : State} {t : Tree}
    (h : w.foldlM State.step .start = some s) (hf : s.finish? = some t) : Statement w t :=
  (reads_of_foldlM (R := Reads) Reads.step Reads.start h).finish hf

end State

/-! ## Programs -/

namespace ProgramState

/-- The tokens that have been read of a program. -/
def Reads (p : ProgramState) (w : List Token) : Prop :=
  ∃ u v, Ended u p.done.reverse ∧ p.current.Reads v ∧ w = u ++ v

theorem reads_start : start.Reads [] := ⟨[], [], .nil, .start, rfl⟩

/-- A program whose statement may end has read slots, the last of which holds that statement. -/
theorem Reads.endStatement {p q : ProgramState} {w : List Token} (hp : p.Reads w)
    (h : p.endStatement? = some q) : q.current = .start ∧ ∃ u v ts us, Ended u ts ∧ Slot v us ∧
      w = u ++ v ∧ q.done.reverse = ts ++ us := by
  obtain ⟨done, current⟩ := p
  obtain ⟨u, v, hu, hv, rfl⟩ := hp
  unfold endStatement? at h
  split at h
  · rename_i hs
    cases h
    dsimp only at hs hv
    subst hs
    cases hv
    exact ⟨rfl, u, [], _, [], hu, .vacant, rfl, (List.append_nil _).symm⟩
  · obtain ⟨t, ht, rfl⟩ := Option.map_eq_some_iff.1 h
    exact ⟨rfl, u, v, _, [t], hu, .filled (hv.finish ht), rfl, List.reverse_cons⟩

theorem Reads.step {p q : ProgramState} {w : List Token} {t : Token} (hp : p.Reads w)
    (h : p.step t = some q) : q.Reads (w ++ [t]) := by
  unfold ProgramState.step at h
  split at h
  · rename_i ht
    obtain ⟨hq, u, v, ts, us, hu, hv, rfl, hd⟩ := hp.endStatement h
    refine ⟨_, [], ?_, ?_, (List.append_nil _).symm⟩
    · rw [hd, List.append_assoc]
      exact .more hu hv ht
    · rw [hq]
      exact .start
  · obtain ⟨s, hs, rfl⟩ := Option.map_eq_some_iff.1 h
    obtain ⟨u, v, hu, hv, rfl⟩ := hp
    exact ⟨u, v ++ [t], hu, hv.step hs, List.append_assoc ..⟩

/-- The machine accepts only programs. -/
theorem program_of_run {w : List Token} {p : ProgramState} {ts : List Tree}
    (h : w.foldlM ProgramState.step start = some p) (hf : p.finish? = some ts) :
    Program w ts := by
  obtain ⟨q, hq, rfl⟩ := Option.map_eq_some_iff.1 hf
  have hr := reads_of_foldlM (R := Reads) Reads.step reads_start h
  obtain ⟨-, u, v, ts, us, hu, hv, hw, hd⟩ := hr.endStatement hq
  rw [List.nil_append] at hw
  rw [hd, hw]
  exact .mk hu hv

end ProgramState

end MatrixCalc
