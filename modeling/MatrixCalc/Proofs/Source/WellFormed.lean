import MatrixCalc.Proofs.Source.Grammar
import MatrixCalc.Proofs.Source.Lexeme

/-!
# Trees that come from texts

`Tree.IsStatement` says which trees a source text can have: an assignment or a printed expression,
with no statement inside; sums nested to the left only, signs on operands only, names and numerals
that are lexemes, and brackets that hold a member which is no literal. The derivations of the grammar
over lexemes build no other trees (`Grammar.Statement.isStatement`).
-/

namespace MatrixCalc

namespace Tree

/-- The tree is a sum or a difference. -/
def isSum : Tree → Bool
  | .sum _ _ | .subtract _ _ => true
  | _ => false

mutual
/-- The tree is an expression as texts write them. -/
def IsExpression : Tree → Prop
  | .number text => text.toList ∈ Terminal.number
  | .variable name => IsIdentifier name
  | .signed sign t => (sign = "+" ∨ sign = "-") ∧ t.IsExpression ∧ t.isSum = false
  | .group t => t.IsExpression
  | .sum l r => l.IsExpression ∧ r.IsExpression ∧ r.isSum = false
  | .subtract l r => l.IsExpression ∧ r.IsExpression ∧ r.isSum = false
  | .array ts => AreExpressions ts ∧ (ts = [] ∨ ∃ t ∈ ts, t.isLiteral = false)
  | .matrix ts => AreExpressions ts
  | .determinant t => t.IsExpression
  | .assign _ _ => False
  | .print _ => False
  | .foreign _ => False
/-- All the trees are expressions. -/
def AreExpressions : List Tree → Prop
  | [] => True
  | t :: ts => t.IsExpression ∧ AreExpressions ts
end

/-- The tree is a statement as texts write them. -/
def IsStatement : Tree → Prop
  | .assign name t => IsIdentifier name ∧ t.IsExpression
  | .print t => t.IsExpression
  | _ => False

theorem areExpressions_append {ts us : List Tree} (ht : AreExpressions ts)
    (hu : AreExpressions us) : AreExpressions (ts ++ us) := by
  induction ts with
  | nil => exact hu
  | cons t ts ih => exact ⟨ht.1, ih ht.2⟩

theorem isExpression_ofBracket {ts : List Tree} (h : AreExpressions ts) :
    (ofBracket ts).IsExpression := by
  unfold ofBracket
  split
  · exact h
  · rename_i hl
    refine ⟨h, .inr ?_⟩
    rw [List.all_eq_true] at hl
    push Not at hl
    obtain ⟨t, ht, hn⟩ := hl
    exact ⟨t, ht, Bool.eq_false_iff.2 hn⟩

theorem isSum_ofBracket (ts : List Tree) : (ofBracket ts).isSum = false := by
  unfold ofBracket
  split <;> rfl

end Tree

namespace Grammar

/-- Every token of the word is a lexeme. -/
def Lexical (w : List Token) : Prop := ∀ t ∈ w, (Piece.token t).IsLexeme

theorem lexical_append {u v : List Token} : Lexical (u ++ v) ↔ Lexical u ∧ Lexical v :=
  List.forall_mem_append

theorem lexical_cons {t : Token} {w : List Token} :
    Lexical (t :: w) ↔ (Piece.token t).IsLexeme ∧ Lexical w :=
  List.forall_mem_cons

mutual
theorem Expression.isExpression {w : List Token} {t : Tree} : Expression w t → Lexical w →
    t.IsExpression
  | .sum hl hr, hw => by
    rw [lexical_append, lexical_cons] at hw
    have hs := hr.isExpression hw.2.2
    exact ⟨hl.isExpression hw.1, hs.1, hs.2⟩
  | .subtract hl hr, hw => by
    rw [lexical_append, lexical_cons] at hw
    have hs := hr.isExpression hw.2.2
    exact ⟨hl.isExpression hw.1, hs.1, hs.2⟩
  | .signed hs, hw => (hs.isExpression hw).1
theorem Signed.isExpression {w : List Token} {t : Tree} : Signed w t → Lexical w →
    t.IsExpression ∧ t.isSum = false
  | .plus hs, hw => ⟨⟨.inl rfl, hs.isExpression (lexical_cons.1 hw).2⟩, rfl⟩
  | .minus hs, hw => ⟨⟨.inr rfl, hs.isExpression (lexical_cons.1 hw).2⟩, rfl⟩
  | .atom ha, hw => ha.isExpression hw
theorem Atom.isExpression {w : List Token} {t : Tree} : Atom w t → Lexical w →
    t.IsExpression ∧ t.isSum = false
  | .number s, hw => ⟨(lexical_cons.1 hw).1, rfl⟩
  | .variable x, hw => ⟨(lexical_cons.1 hw).1, rfl⟩
  | .group he, hw => by
    rw [lexical_append, lexical_cons] at hw
    exact ⟨he.isExpression hw.1.2, rfl⟩
  | .determinant he, hw => by
    rw [lexical_append, lexical_cons, lexical_cons] at hw
    exact ⟨he.isExpression hw.1.2.2, rfl⟩
  | .emptyBracket, _ => ⟨⟨trivial, .inl rfl⟩, rfl⟩
  | .bracket hm, hw => by
    rw [lexical_append, lexical_cons] at hw
    exact ⟨Tree.isExpression_ofBracket (hm.areExpressions hw.1.2), Tree.isSum_ofBracket _⟩
  | .emptyBrace, _ => ⟨trivial, rfl⟩
  | .brace hm, hw => by
    rw [lexical_append, lexical_cons] at hw
    exact ⟨hm.areExpressions hw.1.2, rfl⟩
theorem Members.areExpressions {w : List Token} {ts : List Tree} : Members w ts → Lexical w →
    Tree.AreExpressions ts
  | .one he, hw => ⟨he.isExpression hw, trivial⟩
  | .more hm he, hw => by
    rw [lexical_append, lexical_cons] at hw
    exact Tree.areExpressions_append (hm.areExpressions hw.1) ⟨he.isExpression hw.2.2, trivial⟩
end

theorem Statement.isStatement {w : List Token} {t : Tree} (h : Statement w t) (hw : Lexical w) :
    t.IsStatement := by
  cases h with
  | assign x he =>
    rw [lexical_cons, lexical_cons] at hw
    exact ⟨hw.1, he.isExpression hw.2.2⟩
  | print he => exact he.isExpression hw

theorem Slot.isStatement {w : List Token} {ts : List Tree} (h : Slot w ts) (hw : Lexical w) :
    ∀ t ∈ ts, t.IsStatement := by
  cases h with
  | vacant =>
    intro t ht
    cases ht
  | filled hs =>
    intro t ht
    rw [List.mem_singleton.1 ht]
    exact hs.isStatement hw

theorem Ended.isStatement {w : List Token} {ts : List Tree} (h : Ended w ts) (hw : Lexical w) :
    ∀ t ∈ ts, t.IsStatement := by
  induction h with
  | nil =>
    intro t ht
    cases ht
  | more _ hs _ ih =>
    rw [lexical_append, lexical_append] at hw
    rw [List.forall_mem_append]
    exact ⟨ih hw.1, hs.isStatement hw.2.1⟩

theorem Program.isStatement {w : List Token} {ts : List Tree} (h : Program w ts)
    (hw : Lexical w) : ∀ t ∈ ts, t.IsStatement := by
  cases h with
  | mk he hs =>
    rw [lexical_append] at hw
    rw [List.forall_mem_append]
    exact ⟨he.isStatement hw.1, hs.isStatement hw.2⟩

end Grammar

end MatrixCalc
