import MatrixCalc.Source.Token
import MatrixCalc.Source.Tree

/-!
# The grammar

The sentences of the language as words over tokens, each with the tree that its derivation builds.
The rules are those of a reference grammar: sums are nested to the left, a sign belongs to the
operand behind it, and a name is assigned only at the head of a statement.

1. `Expression`, `Signed`, `Atom` and `Members` are derived from each other.
2. `Statement` is an assignment or a printed expression.
3. `Program` is a row of slots, each with a statement or none, between separators.
-/

namespace MatrixCalc

namespace Grammar

mutual
/-- A sum, a difference or a signed operand. -/
inductive Expression : List Token → Tree → Prop where
  | sum {l r : List Token} {a b : Tree} :
    Expression l a → Signed r b → Expression (l ++ .plus :: r) (.sum a b)
  | subtract {l r : List Token} {a b : Tree} :
    Expression l a → Signed r b → Expression (l ++ .minus :: r) (.subtract a b)
  | signed {w : List Token} {t : Tree} : Signed w t → Expression w t
/-- An operand behind any number of signs. -/
inductive Signed : List Token → Tree → Prop where
  | plus {w : List Token} {t : Tree} : Signed w t → Signed (.plus :: w) (.signed "+" t)
  | minus {w : List Token} {t : Tree} : Signed w t → Signed (.minus :: w) (.signed "-" t)
  | atom {w : List Token} {t : Tree} : Atom w t → Signed w t
/-- An operand. -/
inductive Atom : List Token → Tree → Prop where
  | number (s : String) : Atom [.number s] (.number s)
  | variable (x : String) : Atom [.name x] (.variable x)
  | group {w : List Token} {t : Tree} :
    Expression w t → Atom (.openParen :: w ++ [.closeParen]) (.group t)
  | determinant {w : List Token} {t : Tree} :
    Expression w t → Atom (.det :: .openParen :: w ++ [.closeParen]) (.determinant t)
  | emptyBracket : Atom [.openBracket, .closeBracket] (.array [])
  | bracket {w : List Token} {ts : List Tree} :
    Members w ts → Atom (.openBracket :: w ++ [.closeBracket]) (.ofBracket ts)
  | emptyBrace : Atom [.openBrace, .closeBrace] (.matrix [])
  | brace {w : List Token} {ts : List Tree} :
    Members w ts → Atom (.openBrace :: w ++ [.closeBrace]) (.matrix ts)
/-- One or more expressions between commas. -/
inductive Members : List Token → List Tree → Prop where
  | one {w : List Token} {t : Tree} : Expression w t → Members w [t]
  | more {w v : List Token} {ts : List Tree} {t : Tree} :
    Members w ts → Expression v t → Members (w ++ .comma :: v) (ts ++ [t])
end

/-- An assignment or a printed expression. -/
inductive Statement : List Token → Tree → Prop where
  | assign (x : String) {w : List Token} {t : Tree} :
    Expression w t → Statement (.name x :: .equals :: w) (.assign x t)
  | print {w : List Token} {t : Tree} : Expression w t → Statement w (.print t)

/-- A statement or none. -/
inductive Slot : List Token → List Tree → Prop where
  | vacant : Slot [] []
  | filled {w : List Token} {t : Tree} : Statement w t → Slot w [t]

/-- Slots that are ended by separators. -/
inductive Ended : List Token → List Tree → Prop where
  | nil : Ended [] []
  | more {w v : List Token} {ts us : List Tree} {separator : Token} :
    Ended w ts → Slot v us → separator.isSeparator = true →
      Ended (w ++ (v ++ [separator])) (ts ++ us)

/-- Slots that are ended by separators, and one more. -/
inductive Program : List Token → List Tree → Prop where
  | mk {w v : List Token} {ts us : List Tree} : Ended w ts → Slot v us → Program (w ++ v) (ts ++ us)

theorem Members.ne_nil {w : List Token} {ts : List Tree} (h : Members w ts) : ts ≠ [] := by
  cases h with
  | one _ => exact List.cons_ne_nil _ _
  | more _ _ => exact fun h => List.cons_ne_nil _ _ (List.append_eq_nil_iff.1 h).2

/-- Members may also be derived from the first one on. -/
theorem Members.cons {v : List Token} {t : Tree} (h : Expression v t) :
    ∀ {w ts}, Members w ts → Members (v ++ .comma :: w) (t :: ts)
  | _, _, .one h' => .more (.one h) h'
  | _, _, .more hm h' => by
    have hmore := Members.more (Members.cons h hm) h'
    rw [List.append_assoc, List.cons_append] at hmore
    exact hmore

end Grammar

end MatrixCalc
