import MatrixCalc.Source.Token
import MatrixCalc.Source.Tree

/-!
# Reading a statement token by token

A statement is read by a machine with a stack, one step a token. The state holds what has been read
of the statement: an operand is due or an expression is complete, inside which openings. A token
that no statement can have here gives no next state, so the machine stops at the first offence.

1. `State.step` takes one token, `State.finish?` gives the tree of a statement that may end here.
2. `ProgramState.step` runs the machine over statements between separators.

A sum is nested to the left, and signs bind more tightly than sums: `Level` keeps the sum on the
left of the operand that is due, and the signs in front of it.
-/

namespace MatrixCalc

/-- A plus or a minus, in front of an operand or between two. -/
inductive Operator where
  | plus
  | minus
deriving DecidableEq, Repr

namespace Operator

/-- The text of an operator. -/
def text : Operator → String
  | .plus => "+"
  | .minus => "-"

/-- The tree of two operands. -/
def join : Operator → Tree → Tree → Tree
  | .plus => .sum
  | .minus => .subtract

end Operator

/-- What stands before the operand that is due, on one level of nesting: the sum on its left with
the operator behind it, and the signs in front of it, the last one first. -/
structure Level where
  left : Option (Tree × Operator)
  signs : List Operator

namespace Level

/-- Nothing has been read on this level. -/
def empty : Level := ⟨none, []⟩

/-- One more sign in front of the operand. -/
def sign (l : Level) (o : Operator) : Level := { l with signs := o :: l.signs }

/-- The expression of this level once its operand is there. -/
def fill (l : Level) (operand : Tree) : Tree :=
  let signed := l.signs.foldl (fun t o => .signed o.text t) operand
  match l.left with
  | none => signed
  | some (left, o) => o.join left signed

end Level

/-- An opening that has not been closed, with the members before the one that is read, the last
one first. -/
inductive Opening where
  | group
  | determinant
  | bracket (members : List Tree)
  | brace (members : List Tree)

namespace Opening

/-- The tree of an opening that is closed behind its last expression. -/
def close? : Opening → Token → Tree → Option Tree
  | .group, .closeParen, e => some (.group e)
  | .determinant, .closeParen, e => some (.determinant e)
  | .bracket ms, .closeBracket, e => some (.ofBracket (ms.reverse ++ [e]))
  | .brace ms, .closeBrace, e => some (.matrix (ms.reverse ++ [e]))
  | _, _, _ => none

/-- The tree of an opening that is closed at once. -/
def closeEmpty? : Opening → Token → Option Tree
  | .bracket [], .closeBracket => some (.array [])
  | .brace [], .closeBrace => some (.matrix [])
  | _, _ => none

/-- The opening behind a comma. -/
def comma? : Opening → Tree → Option Opening
  | .bracket ms, e => some (.bracket (e :: ms))
  | .brace ms, e => some (.brace (e :: ms))
  | _, _ => none

end Opening

/-- An opening, and the level on which it stands. -/
structure Frame where
  level : Level
  opening : Opening

/-- What encloses the level that is read: the name that is assigned, if any, and the openings, the
innermost first. -/
structure Context where
  target : Option String
  frames : List Frame

namespace Context

/-- Inside one more opening. -/
def push (c : Context) (level : Level) (opening : Opening) : Context :=
  { c with frames := ⟨level, opening⟩ :: c.frames }

/-- The statement of a complete expression. -/
def statement (c : Context) (e : Tree) : Tree :=
  match c.target with
  | none => .print e
  | some x => .assign x e

end Context

/-- What has been read of a statement. -/
inductive State where
  /-- Nothing. -/
  | start
  /-- A name alone, which may be assigned. -/
  | named (x : String)
  /-- An operand is due. -/
  | operand (c : Context) (level : Level)
  /-- An opening parenthesis is due, behind the keyword. -/
  | keyword (c : Context) (level : Level)
  /-- An expression is complete on this level. -/
  | complete (c : Context) (e : Tree)

namespace State

/-- A step where an operand is due. -/
def stepOperand (c : Context) (level : Level) : Token → Option State
  | .number s => some (.complete c (level.fill (.number s)))
  | .name x => some (.complete c (level.fill (.variable x)))
  | .plus => some (.operand c (level.sign .plus))
  | .minus => some (.operand c (level.sign .minus))
  | .openParen => some (.operand (c.push level .group) .empty)
  | .openBracket => some (.operand (c.push level (.bracket [])) .empty)
  | .openBrace => some (.operand (c.push level (.brace [])) .empty)
  | .det => some (.keyword c level)
  | t =>
    match level, c.frames with
    | ⟨none, []⟩, frame :: frames =>
      (frame.opening.closeEmpty? t).map fun e => .complete ⟨c.target, frames⟩ (frame.level.fill e)
    | _, _ => none

/-- A step behind a complete expression. -/
def stepComplete (c : Context) (e : Tree) : Token → Option State
  | .plus => some (.operand c ⟨some (e, .plus), []⟩)
  | .minus => some (.operand c ⟨some (e, .minus), []⟩)
  | t =>
    match c.frames with
    | [] => none
    | frame :: frames =>
      if t = .comma then
        (frame.opening.comma? e).map fun o => .operand ⟨c.target, ⟨frame.level, o⟩ :: frames⟩ .empty
      else
        (frame.opening.close? t e).map fun a => .complete ⟨c.target, frames⟩ (frame.level.fill a)

/-- The state behind a token, if a statement may go on with it. -/
def step : State → Token → Option State
  | .start, .name x => some (.named x)
  | .start, t => stepOperand ⟨none, []⟩ .empty t
  | .named x, .equals => some (.operand ⟨some x, []⟩ .empty)
  | .named x, t => stepComplete ⟨none, []⟩ (.variable x) t
  | .operand c level, t => stepOperand c level t
  | .keyword c level, .openParen => some (.operand (c.push level .determinant) .empty)
  | .keyword _ _, _ => none
  | .complete c e, t => stepComplete c e t

/-- The tree of a statement that may end here. -/
def finish? : State → Option Tree
  | .named x => some (.print (.variable x))
  | .complete ⟨target, []⟩ e => some (Context.statement ⟨target, []⟩ e)
  | _ => none

end State

/-- What has been read of a program: the statements before the current one, the last one first, and
the state of the current one. -/
structure ProgramState where
  done : List Tree
  current : State

namespace ProgramState

/-- Nothing has been read. -/
def start : ProgramState := ⟨[], .start⟩

/-- The program with its current statement ended; a blank one leaves no trace. -/
def endStatement? (p : ProgramState) : Option ProgramState :=
  match p.current with
  | .start => some p
  | s => s.finish?.map fun t => ⟨t :: p.done, .start⟩

/-- The state behind a token, if a program may go on with it. -/
def step (p : ProgramState) (t : Token) : Option ProgramState :=
  if t.isSeparator then p.endStatement?
  else (p.current.step t).map fun s => ⟨p.done, s⟩

/-- The statements of a program that may end here, in order. -/
def finish? (p : ProgramState) : Option (List Tree) :=
  p.endStatement?.map fun q => q.done.reverse

end ProgramState

end MatrixCalc
