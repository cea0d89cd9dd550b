import MatrixCalc.Proofs.Source.Separators

/-!
# Brackets in writing

A tree does not say how it was written: a matrix may come from braces or from brackets. `Form` keeps
the writing, and `Form.tree` builds the tree from it, bottom-up. So one can ask of each bracket in an
accepted text what it is taken for (`bracket_nodes_of_parseProgram`).

1. A form has its tokens and its tree. The derivations of the grammar are the valid forms, for
   expressions (`Form.expression_iff`) and for statements (`Sentence.statement_iff`).
2. A program is written as sentences between separators (`parseProgram_eq_ok_iff_isWritten`).
3. The expressions in a tree are the trees of the parts of its form, one by one
   (`Form.expressions_tree`).
4. A bracket is a matrix if all its members are written as brackets or braces, since both are literals
   as trees (`Form.isLiteral_tree`). The rule that brackets alone are rows (`Form.ruled`) is met except
   where this makes a difference (`Form.tree_bracket_eq_ruled_iff`).
-/

namespace MatrixCalc

open Grammar

/-- An expression as it is written. -/
inductive Form where
  | number (text : String)
  | variable (name : String)
  | signed (sign : Operator) (operand : Form)
  | group (inner : Form)
  | binary (operator : Operator) (left right : Form)
  | bracket (members : List Form)
  | brace (members : List Form)
  | determinant (operand : Form)

namespace Form

/-- The form is a sum or a difference. -/
def isBinary : Form → Bool
  | .binary _ _ _ => true
  | _ => false

/-- The form is written with brackets. -/
def isBracket : Form → Bool
  | .bracket _ => true
  | _ => false

/-- The form is written with braces. -/
def isBrace : Form → Bool
  | .brace _ => true
  | _ => false

/-- The form is written with brackets or braces. -/
def isLiteral (f : Form) : Bool := f.isBracket || f.isBrace

mutual
/-- The tokens of a form. -/
def tokens : Form → List Token
  | .number text => [.number text]
  | .variable name => [.name name]
  | .signed o f => o.token :: f.tokens
  | .group f => .openParen :: f.tokens ++ [.closeParen]
  | .binary o l r => l.tokens ++ o.token :: r.tokens
  | .bracket fs => .openBracket :: (memberTokens fs).tail ++ [.closeBracket]
  | .brace fs => .openBrace :: (memberTokens fs).tail ++ [.closeBrace]
  | .determinant f => .det :: .openParen :: f.tokens ++ [.closeParen]
/-- The tokens of members, each behind a comma. -/
def memberTokens : List Form → List Token
  | [] => []
  | f :: fs => .comma :: (f.tokens ++ memberTokens fs)
end

mutual
/-- The tree of a form, built from those of its parts. -/
def tree : Form → Tree
  | .number text => .number text
  | .variable name => .variable name
  | .signed o f => .signed o.text f.tree
  | .group f => .group f.tree
  | .binary o l r => o.join l.tree r.tree
  | .bracket [] => .array []
  | .bracket (f :: fs) => .ofBracket (f.tree :: trees fs)
  | .brace fs => .matrix (trees fs)
  | .determinant f => .determinant f.tree
/-- The trees of forms. -/
def trees : List Form → List Tree
  | [] => []
  | f :: fs => f.tree :: trees fs
end

mutual
/-- The operand of a sign, and that to the right of an operator, is no sum or difference. -/
def Valid : Form → Prop
  | .number _ => True
  | .variable _ => True
  | .signed _ f => f.Valid ∧ f.isBinary = false
  | .group f => f.Valid
  | .binary _ l r => l.Valid ∧ r.Valid ∧ r.isBinary = false
  | .bracket fs => AllValid fs
  | .brace fs => AllValid fs
  | .determinant f => f.Valid
/-- All the forms are valid. -/
def AllValid : List Form → Prop
  | [] => True
  | f :: fs => f.Valid ∧ AllValid fs
end

mutual
/-- The form and the forms in it, each before its own parts. -/
def parts : Form → List Form
  | .number text => [.number text]
  | .variable name => [.variable name]
  | .signed o f => .signed o f :: f.parts
  | .group f => .group f :: f.parts
  | .binary o l r => .binary o l r :: (l.parts ++ r.parts)
  | .bracket fs => .bracket fs :: memberParts fs
  | .brace fs => .brace fs :: memberParts fs
  | .determinant f => .determinant f :: f.parts
/-- The parts of members. -/
def memberParts : List Form → List Form
  | [] => []
  | f :: fs => f.parts ++ memberParts fs
end

theorem trees_eq_map (fs : List Form) : trees fs = fs.map tree := by
  induction fs with
  | nil => rfl
  | cons f fs ih => rw [trees, ih, List.map_cons]

theorem memberTokens_append (fs gs : List Form) :
    memberTokens (fs ++ gs) = memberTokens fs ++ memberTokens gs := by
  induction fs with
  | nil => rfl
  | cons f fs ih =>
    rw [List.cons_append, memberTokens, ih, memberTokens, List.cons_append, List.append_assoc]

theorem allValid_append {fs gs : List Form} :
    AllValid (fs ++ gs) ↔ AllValid fs ∧ AllValid gs := by
  induction fs with
  | nil => exact (iff_of_eq (true_and _)).symm
  | cons f fs ih =>
    rw [List.cons_append, AllValid, ih, AllValid, and_assoc]

/-! ## Derivations -/

/-- The form is valid, with these tokens and this tree. -/
structure Represents (f : Form) (w : List Token) (t : Tree) : Prop where
  valid : f.Valid
  tokens : f.tokens = w
  tree : f.tree = t

/-- The members are valid and at least one, with these tokens between commas and these trees. -/
structure RepresentsMembers (fs : List Form) (w : List Token) (ts : List Tree) : Prop where
  valid : AllValid fs
  tokens : (memberTokens fs).tail = w
  trees : trees fs = ts
  ne_nil : fs ≠ []

theorem RepresentsMembers.tree_bracket {fs : List Form} {w : List Token} {ts : List Tree}
    (h : RepresentsMembers fs w ts) : (bracket fs).tree = .ofBracket ts := by
  obtain ⟨f, fs, rfl⟩ := List.exists_cons_of_ne_nil h.ne_nil
  rw [← h.trees]
  rfl

/-- One more member, behind a comma. -/
theorem RepresentsMembers.concat {fs : List Form} {w v : List Token} {ts : List Tree} {f : Form}
    {t : Tree} (h : RepresentsMembers fs w ts) (hf : f.Represents v t) :
    RepresentsMembers (fs ++ [f]) (w ++ .comma :: v) (ts ++ [t]) := by
  obtain ⟨g, fs, rfl⟩ := List.exists_cons_of_ne_nil h.ne_nil
  refine ⟨allValid_append.2 ⟨h.valid, hf.valid, trivial⟩, ?_, ?_, ?_⟩
  · rw [memberTokens_append, ← h.tokens, ← hf.tokens]
    simp only [memberTokens, List.append_nil, List.cons_append, List.tail_cons]
  · rw [trees_eq_map, List.map_append, ← trees_eq_map, h.trees, List.map_singleton, hf.tree]
  · exact List.cons_ne_nil _ _

mutual
/-- What is derived as an expression has a form. -/
theorem exists_of_expression {w : List Token} {t : Tree} : Expression w t →
    ∃ f : Form, f.Represents w t
  | .sum hl hr => by
    obtain ⟨l, hlv, rfl, rfl⟩ := exists_of_expression hl
    obtain ⟨r, ⟨hrv, rfl, rfl⟩, hbinary⟩ := exists_of_signed hr
    exact ⟨.binary .plus l r, ⟨hlv, hrv, hbinary⟩, rfl, rfl⟩
  | .subtract hl hr => by
    obtain ⟨l, hlv, rfl, rfl⟩ := exists_of_expression hl
    obtain ⟨r, ⟨hrv, rfl, rfl⟩, hbinary⟩ := exists_of_signed hr
    exact ⟨.binary .minus l r, ⟨hlv, hrv, hbinary⟩, rfl, rfl⟩
  | .signed h => by
    obtain ⟨f, hf, -⟩ := exists_of_signed h
    exact ⟨f, hf⟩
/-- What is derived as a signed operand has a form that is no sum. -/
theorem exists_of_signed {w : List Token} {t : Tree} : Signed w t →
    ∃ f : Form, f.Represents w t ∧ f.isBinary = false
  | .plus h => by
    obtain ⟨f, ⟨hf, rfl, rfl⟩, hbinary⟩ := exists_of_signed h
    exact ⟨.signed .plus f, ⟨⟨hf, hbinary⟩, rfl, rfl⟩, rfl⟩
  | .minus h => by
    obtain ⟨f, ⟨hf, rfl, rfl⟩, hbinary⟩ := exists_of_signed h
    exact ⟨.signed .minus f, ⟨⟨hf, hbinary⟩, rfl, rfl⟩, rfl⟩
  | .atom h => exists_of_atom h
/-- What is derived as an operand has a form that is no sum. -/
theorem exists_of_atom {w : List Token} {t : Tree} : Atom w t →
    ∃ f : Form, f.Represents w t ∧ f.isBinary = false
  | .number s => ⟨.number s, ⟨trivial, rfl, rfl⟩, rfl⟩
  | .variable x => ⟨.variable x, ⟨trivial, rfl, rfl⟩, rfl⟩
  | .group h => by
    obtain ⟨f, hf, rfl, rfl⟩ := exists_of_expression h
    exact ⟨.group f, ⟨hf, rfl, rfl⟩, rfl⟩
  | .determinant h => by
    obtain ⟨f, hf, rfl, rfl⟩ := exists_of_expression h
    exact ⟨.determinant f, ⟨hf, rfl, rfl⟩, rfl⟩
  | .emptyBracket => ⟨.bracket [], ⟨trivial, rfl, rfl⟩, rfl⟩
  | .bracket h => by
    obtain ⟨fs, hfs⟩ := exists_of_members h
    have htree := hfs.tree_bracket
    obtain ⟨hvalid, rfl, rfl, -⟩ := hfs
    exact ⟨.bracket fs, ⟨hvalid, rfl, htree⟩, rfl⟩
  | .emptyBrace => ⟨.brace [], ⟨trivial, rfl, rfl⟩, rfl⟩
  | .brace h => by
    obtain ⟨fs, hvalid, rfl, rfl, -⟩ := exists_of_members h
    exact ⟨.brace fs, ⟨hvalid, rfl, rfl⟩, rfl⟩
/-- What is derived as members has forms. -/
theorem exists_of_members {w : List Token} {ts : List Tree} : Members w ts →
    ∃ fs : List Form, RepresentsMembers fs w ts
  | .one h => by
    obtain ⟨f, hf, rfl, rfl⟩ := exists_of_expression h
    exact ⟨[f], ⟨hf, trivial⟩, List.append_nil _, rfl, List.cons_ne_nil _ _⟩
  | .more h hv => by
    obtain ⟨fs, hfs⟩ := exists_of_members h
    obtain ⟨f, hf⟩ := exists_of_expression hv
    exact ⟨fs ++ [f], hfs.concat hf⟩
end

/-- The tree is derived from the tokens, and if the form is no sum, then as an operand. -/
structure Derived (f : Form) : Prop where
  expression : Expression f.tokens f.tree
  signed : f.isBinary = false → Signed f.tokens f.tree

theorem Derived.of_signed {f : Form} (h : Signed f.tokens f.tree) : f.Derived :=
  ⟨.signed h, fun _ => h⟩

theorem Derived.of_atom {f : Form} (h : Atom f.tokens f.tree) : f.Derived := .of_signed (.atom h)

mutual
/-- A valid form is derived. -/
theorem derived_of_valid : ∀ {f : Form}, f.Valid → f.Derived
  | .number text, _ => .of_atom (.number text)
  | .variable name, _ => .of_atom (.variable name)
  | .signed o f, ⟨hf, hbinary⟩ => by
    have hsigned := (derived_of_valid hf).signed hbinary
    cases o with
    | plus => exact .of_signed (.plus hsigned)
    | minus => exact .of_signed (.minus hsigned)
  | .group f, h => .of_atom (.group (derived_of_valid (f := f) h).expression)
  | .binary o l r, ⟨hl, hr, hbinary⟩ => by
    have hleft := (derived_of_valid hl).expression
    have hright := (derived_of_valid hr).signed hbinary
    cases o with
    | plus => exact ⟨.sum hleft hright, nofun⟩
    | minus => exact ⟨.subtract hleft hright, nofun⟩
  | .bracket [], _ => .of_atom .emptyBracket
  | .bracket (f :: fs), h => .of_atom (.bracket (members_of_allValid (List.cons_ne_nil f fs) h))
  | .brace [], _ => .of_atom .emptyBrace
  | .brace (f :: fs), h => .of_atom (.brace (members_of_allValid (List.cons_ne_nil f fs) h))
  | .determinant f, h => .of_atom (.determinant (derived_of_valid (f := f) h).expression)
/-- Valid forms are derived as members, from the first one on. -/
theorem members_of_allValid : ∀ {fs : List Form}, fs ≠ [] → AllValid fs →
    Members (memberTokens fs).tail (trees fs)
  | [f], _, ⟨hf, _⟩ => by
    show Members (f.tokens ++ []) [f.tree]
    rw [List.append_nil]
    exact .one (derived_of_valid hf).expression
  | f :: g :: fs, _, ⟨hf, hfs⟩ => by
    have hmembers := members_of_allValid (List.cons_ne_nil g fs) hfs
    exact .cons (derived_of_valid hf).expression hmembers
end

/-- The derivations of expressions are the valid forms. -/
theorem expression_iff {w : List Token} {t : Tree} :
    Expression w t ↔ ∃ f : Form, f.Represents w t := by
  constructor
  · exact exists_of_expression
  · rintro ⟨f, hvalid, rfl, rfl⟩
    exact (derived_of_valid hvalid).expression

end Form

/-! ## Programs -/

/-- A statement as it is written: the name that is assigned, if any, and an expression. -/
structure Sentence where
  target : Option String
  body : Form
  valid : body.Valid

namespace Sentence

/-- The tokens of a sentence. -/
def tokens (s : Sentence) : List Token :=
  match s.target with
  | none => s.body.tokens
  | some x => .name x :: .equals :: s.body.tokens

/-- The tree of a sentence. -/
def tree (s : Sentence) : Tree :=
  match s.target with
  | none => .print s.body.tree
  | some x => .assign x s.body.tree

theorem statement_iff {w : List Token} {t : Tree} :
    Statement w t ↔ ∃ s : Sentence, s.tokens = w ∧ s.tree = t := by
  constructor
  · intro h
    cases h with
    | assign x h =>
      obtain ⟨f, hvalid, rfl, rfl⟩ := Form.expression_iff.1 h
      exact ⟨⟨some x, f, hvalid⟩, rfl, rfl⟩
    | print h =>
      obtain ⟨f, hvalid, rfl, rfl⟩ := Form.expression_iff.1 h
      exact ⟨⟨none, f, hvalid⟩, rfl, rfl⟩
  · rintro ⟨⟨target, f, hvalid⟩, rfl, rfl⟩
    have hf := (Form.derived_of_valid hvalid).expression
    cases target with
    | none => exact .print hf
    | some x => exact .assign x hf

end Sentence

/-- The stretches of tokens between the separators of a word, without the empty ones. -/
def stretches (w : List Token) : List (List Token) :=
  (w.splitOnP Token.isSeparator).filter (· ≠ [])

theorem stretches_append {u v : List Token} {t : Token} (ht : t.isSeparator = true) :
    stretches (u ++ t :: v) = stretches u ++ stretches v := by
  unfold stretches
  rw [List.splitOnP_append_cons _ _ ht, List.filter_append]

theorem stretches_of_no_separator {w : List Token} (h : ∀ t ∈ w, t.isSeparator = false) :
    stretches w = [w].filter (· ≠ []) := by
  unfold stretches
  rw [List.splitOnP_eq_singleton h]

/-- A program without separators is a statement or none. -/
theorem program_iff_slot {w : List Token} {ts : List Tree} (hw : ∀ t ∈ w, t.isSeparator = false) :
    Program w ts ↔ Slot w ts := by
  constructor
  · rintro ⟨hended, hslot⟩
    cases hended with
    | nil => exact hslot
    | @more _ _ _ _ separator _ _ hsep =>
      rw [hw separator (by simp)] at hsep
      cases hsep
  · exact .mk .nil

/-- A word without separators is no sentence or one. -/
theorem slot_iff_sentences {w : List Token} {ts : List Tree} :
    Slot w ts ↔ ∃ ss : List Sentence, [w].filter (· ≠ []) = ss.map Sentence.tokens ∧
      ts = ss.map Sentence.tree := by
  constructor
  · intro h
    cases h with
    | vacant => exact ⟨[], rfl, rfl⟩
    | @filled _ t h =>
      obtain ⟨s, rfl, rfl⟩ := Sentence.statement_iff.1 h
      have hne : s.tokens ≠ [] := by
        intro hnil
        rw [hnil] at h
        cases program_unique (.mk .nil (.filled h)) (.mk .nil .vacant)
      exact ⟨[s], List.filter_cons_of_pos (decide_eq_true hne), rfl⟩
  · rintro ⟨ss, hss, rfl⟩
    cases w with
    | nil =>
      obtain rfl := List.map_eq_nil_iff.1 hss.symm
      exact .vacant
    | cons t w =>
      obtain ⟨s, rfl, hs⟩ := List.map_eq_singleton_iff.1 hss.symm
      exact .filled (Sentence.statement_iff.2 ⟨s, hs, rfl⟩)

/-- The statements of a program are written as sentences between its separators. -/
theorem program_iff_sentences (w : List Token) (ts : List Tree) :
    Program w ts ↔ ∃ ss : List Sentence, stretches w = ss.map Sentence.tokens ∧
      ts = ss.map Sentence.tree := by
  induction hlength : w.length using Nat.strong_induction_on generalizing w ts with
  | _ n ih =>
    subst hlength
    by_cases hw : ∀ t ∈ w, t.isSeparator = false
    · rw [program_iff_slot hw, stretches_of_no_separator hw, slot_iff_sentences]
    · simp only [not_forall, Bool.not_eq_false] at hw
      obtain ⟨t, hmem, ht⟩ := hw
      obtain ⟨u, v, rfl⟩ := List.append_of_mem hmem
      have hlength : (u ++ t :: v).length = u.length + (v.length + 1) := by
        rw [List.length_append, List.length_cons]
      have hu := fun us => ih u.length (by omega) u us rfl
      have hv := fun vs => ih v.length (by omega) v vs rfl
      rw [program_join_iff ht, stretches_append ht]
      simp only [hu, hv]
      constructor
      · rintro ⟨us, vs, ⟨ss, hss, rfl⟩, ⟨ss', hss', rfl⟩, rfl⟩
        exact ⟨ss ++ ss', by rw [hss, hss', List.map_append], List.map_append.symm⟩
      · rintro ⟨ss, hss, rfl⟩
        obtain ⟨ss₁, ss₂, rfl, hss₁, hss₂⟩ := List.map_eq_append_iff.1 hss.symm
        exact ⟨_, _, ⟨ss₁, hss₁.symm, rfl⟩, ⟨ss₂, hss₂.symm, rfl⟩, List.map_append⟩

/-- The text is written as the sentences: they are the stretches between its separators. -/
def IsWritten (text : String) (ss : List Sentence) : Prop :=
  ∃ w, Lexer.Splits text.toList w ∧ stretches w = ss.map Sentence.tokens

theorem isWritten_iff_lex {text : String} {ss : List Sentence} :
    IsWritten text ss ↔ (lex text).stuck = none ∧
      stretches ((lex text).tokens.map (·.item)) = ss.map Sentence.tokens := by
  constructor
  · rintro ⟨w, hw, hss⟩
    obtain ⟨hstuck, rfl⟩ := Lexer.splits_iff_lex.1 hw
    exact ⟨hstuck, hss⟩
  · rintro ⟨hstuck, hss⟩
    exact ⟨_, Lexer.splits_iff_lex.2 ⟨hstuck, rfl⟩, hss⟩

theorem parseProgram_eq_ok_iff_isWritten {text : String} {ts : List Tree} :
    parseProgram text = .ok ts ↔ ∃ ss, IsWritten text ss ∧ ts = ss.map Sentence.tree := by
  rw [parseProgram_eq_ok_iff]
  simp only [program_iff_sentences]
  constructor
  · rintro ⟨w, hw, ss, hss, hts⟩
    exact ⟨ss, ⟨w, hw, hss⟩, hts⟩
  · rintro ⟨ss, ⟨w, hw, hss⟩, hts⟩
    exact ⟨w, hw, ss, hss, hts⟩

/-! ## Nodes -/

namespace Tree

mutual
/-- The expressions in a tree, each before its own parts. -/
def expressions : Tree → List Tree
  | .number text => [.number text]
  | .variable name => [.variable name]
  | .signed sign t => .signed sign t :: t.expressions
  | .group t => .group t :: t.expressions
  | .sum l r => .sum l r :: (l.expressions ++ r.expressions)
  | .subtract l r => .subtract l r :: (l.expressions ++ r.expressions)
  | .array ts => .array ts :: memberExpressions ts
  | .matrix ts => .matrix ts :: memberExpressions ts
  | .determinant t => .determinant t :: t.expressions
  | .assign _ t => t.expressions
  | .print t => t.expressions
  | .foreign _ => []
/-- The expressions in members. -/
def memberExpressions : List Tree → List Tree
  | [] => []
  | t :: ts => t.expressions ++ memberExpressions ts
end

theorem expressions_ofBracket (ts : List Tree) :
    (ofBracket ts).expressions = ofBracket ts :: memberExpressions ts := by
  unfold ofBracket
  split <;> rfl

end Tree

namespace Form

mutual
/-- The expressions in the tree of a form are the trees of its parts. -/
theorem expressions_tree : ∀ f : Form, f.tree.expressions = f.parts.map tree
  | .number _ => rfl
  | .variable _ => rfl
  | .signed o f => congrArg (_ :: ·) (expressions_tree f)
  | .group f => congrArg (_ :: ·) (expressions_tree f)
  | .binary o l r => by
    have hparts : l.tree.expressions ++ r.tree.expressions = (l.parts ++ r.parts).map tree := by
      rw [expressions_tree l, expressions_tree r, List.map_append]
    cases o with
    | plus => exact congrArg (_ :: ·) hparts
    | minus => exact congrArg (_ :: ·) hparts
  | .bracket [] => rfl
  | .bracket (f :: fs) => by
    rw [parts, List.map_cons, ← memberExpressions_trees (f :: fs)]
    exact Tree.expressions_ofBracket _
  | .brace fs => congrArg (_ :: ·) (memberExpressions_trees fs)
  | .determinant f => congrArg (_ :: ·) (expressions_tree f)
theorem memberExpressions_trees : ∀ fs : List Form,
    Tree.memberExpressions (trees fs) = (memberParts fs).map tree
  | [] => rfl
  | f :: fs => by
    rw [trees, Tree.memberExpressions, memberParts, List.map_append, expressions_tree f,
      memberExpressions_trees fs]
end

/-! ## Brackets -/

/-- As trees, brackets and braces are literals, and nothing else is. -/
theorem isLiteral_tree (f : Form) : f.tree.isLiteral = f.isLiteral := by
  cases f with
  | bracket fs =>
    cases fs with
    | nil => rfl
    | cons f fs =>
      rw [tree, Tree.ofBracket]
      split <;> rfl
  | binary o l r => cases o <;> rfl
  | _ => rfl

theorem isBracket_of_isLiteral {f : Form} (h : f.isLiteral = true) (hbrace : f.isBrace = false) :
    f.isBracket = true := by
  rwa [isLiteral, hbrace, Bool.or_false] at h

theorem not_isBracket_of_isBrace {f : Form} (h : f.isBrace = true) : f.isBracket = false := by
  cases f with
  | brace fs => rfl
  | _ => cases h

/-- The tree of members in brackets by the rule that brackets alone are rows. -/
def ruled (members : List Form) : Tree :=
  if ∀ m ∈ members, m.isBracket then .matrix (members.map tree) else .array (members.map tree)

/-- Members in brackets are rows if all of them are written as literals. -/
theorem tree_bracket {members : List Form} (h : members ≠ []) :
    (bracket members).tree = if ∀ m ∈ members, m.isLiteral then
      .matrix (members.map tree) else .array (members.map tree) := by
  obtain ⟨f, fs, rfl⟩ := List.exists_cons_of_ne_nil h
  rw [tree, trees_eq_map, ← List.map_cons, Tree.ofBracket, List.all_map]
  simp only [Function.comp_def, isLiteral_tree, List.all_eq_true]

/-- The rule is met unless all members are literals and one of them is written with braces. -/
theorem tree_bracket_eq_ruled_iff {members : List Form} (h : members ≠ []) :
    (bracket members).tree = ruled members ↔
      ¬ ((∀ m ∈ members, m.isLiteral) ∧ ∃ m ∈ members, m.isBrace) := by
  rw [tree_bracket h, ruled]
  by_cases hliteral : ∀ m ∈ members, m.isLiteral
  · rw [if_pos hliteral]
    by_cases hbrace : ∃ m ∈ members, m.isBrace
    · obtain ⟨m, hm, hb⟩ := hbrace
      have hbracket : ¬ ∀ m ∈ members, m.isBracket := by
        intro hall
        have := hall m hm
        rw [not_isBracket_of_isBrace hb] at this
        cases this
      rw [if_neg hbracket]
      exact iff_of_false nofun fun hnot => hnot ⟨hliteral, m, hm, hb⟩
    · have hbracket : ∀ m ∈ members, m.isBracket := by
        intro m hm
        refine isBracket_of_isLiteral (hliteral m hm) (Bool.eq_false_iff.2 fun hb => ?_)
        exact hbrace ⟨m, hm, hb⟩
      rw [if_pos hbracket]
      exact iff_of_true rfl fun hboth => hbrace hboth.2
  · have hbracket : ¬ ∀ m ∈ members, m.isBracket := by
      intro hall
      refine hliteral fun m hm => ?_
      rw [isLiteral, hall m hm, Bool.true_or]
    rw [if_neg hliteral, if_neg hbracket]
    exact iff_of_true rfl fun hboth => hliteral hboth.1

end Form

namespace Sentence

/-- The expressions written in a sentence. -/
def parts (s : Sentence) : List Form := s.body.parts

theorem expressions_tree (s : Sentence) : s.tree.expressions = s.parts.map Form.tree := by
  obtain ⟨target, body, hvalid⟩ := s
  cases target <;> exact body.expressions_tree

theorem flatMap_expressions (ss : List Sentence) :
    (ss.map tree).flatMap Tree.expressions = (ss.flatMap parts).map Form.tree := by
  rw [List.flatMap_map, List.map_flatMap]
  exact List.flatMap_congr fun s _ => s.expressions_tree

end Sentence

/-- **Brackets.** An accepted text is written as sentences, and the expressions in its trees are, one by
one, the trees of what is written. Members in brackets make a matrix if all of them are written as
brackets or braces, and a list otherwise. So the rule that brackets alone are rows is met, except where
all members are literals and one of them is written with braces. -/
theorem bracket_nodes_of_parseProgram (text : String) (ts : List Tree)
    (h : parseProgram text = .ok ts) :
    (∃ ss, IsWritten text ss) ∧ ∀ ss, IsWritten text ss →
      ts.flatMap Tree.expressions = (ss.flatMap Sentence.parts).map Form.tree ∧
      ∀ (i : Nat) (members : List Form),
        (ss.flatMap Sentence.parts)[i]? = some (.bracket members) → members ≠ [] →
        (ts.flatMap Tree.expressions)[i]? = some (if ∀ m ∈ members, m.isLiteral then
          .matrix (members.map Form.tree) else .array (members.map Form.tree)) ∧
        ((ts.flatMap Tree.expressions)[i]? = some (Form.ruled members) ↔
          ¬ ((∀ m ∈ members, m.isLiteral) ∧ ∃ m ∈ members, m.isBrace)) := by
  constructor
  · obtain ⟨ss, hss, -⟩ := parseProgram_eq_ok_iff_isWritten.1 h
    exact ⟨ss, hss⟩
  · intro ss hss
    have hparse := parseProgram_eq_ok_iff_isWritten.2 ⟨ss, hss, rfl⟩
    rw [h, Except.ok.injEq] at hparse
    rw [hparse, Sentence.flatMap_expressions]
    refine ⟨rfl, fun i members hi hne => ?_⟩
    rw [List.getElem?_map, hi, Option.map_some, ← Form.tree_bracket hne]
    refine ⟨rfl, ?_⟩
    rw [Option.some.injEq]
    exact Form.tree_bracket_eq_ruled_iff hne

/-- Braces inside a row do not count: the row is written with brackets. -/
theorem bracket_nodes_of_parseProgram_row :
    let text := "x = [[1, \x7b2\x7d], []] # rows"
    let members := [Form.bracket [.number "1", .brace [.number "2"]], .bracket []]
    let ss : List Sentence := [⟨some "x", .bracket members,
      ⟨trivial, ⟨trivial, trivial⟩, trivial⟩, trivial, trivial⟩]
    let ts : List Tree := [.assign "x" (.matrix [.array [.number "1", .matrix [.number "2"]],
      .array []])]
    parseProgram text = .ok ts ∧ IsWritten text ss ∧
    (ss.flatMap Sentence.parts)[0]? = some (.bracket members) ∧ members ≠ [] ∧
    (ts.flatMap Tree.expressions)[0]? = some (Form.ruled members) := by
  intro text members ss ts
  have hwritten : IsWritten text ss := isWritten_iff_lex.2 (by decide +kernel)
  have hparse : parseProgram text = .ok ts :=
    parseProgram_eq_ok_iff_isWritten.2 ⟨ss, hwritten, rfl⟩
  have hne : members ≠ [] := List.cons_ne_nil _ _
  have hnode := ((bracket_nodes_of_parseProgram text ts hparse).2 ss hwritten).2 0 members rfl hne
  have hbrace : ¬ ∃ m ∈ members, m.isBrace := by decide
  exact ⟨hparse, hwritten, rfl, hne, hnode.2.2 fun hboth => hbrace hboth.2⟩

/-- Braces alone are taken for rows, which the rule does not have. -/
theorem not_ruled_braces :
    let text := "[\x7b1, 2\x7d]"
    let members := [Form.brace [.number "1", .number "2"]]
    let ss : List Sentence := [⟨none, .bracket members, ⟨trivial, trivial, trivial⟩, trivial⟩]
    let ts : List Tree := [.print (.matrix [.matrix [.number "1", .number "2"]])]
    parseProgram text = .ok ts ∧ IsWritten text ss ∧
    (ss.flatMap Sentence.parts)[0]? = some (.bracket members) ∧
    Form.ruled members = .array [.matrix [.number "1", .number "2"]] ∧
    (ts.flatMap Tree.expressions)[0]? ≠ some (Form.ruled members) := by
  intro text members ss ts
  have hwritten : IsWritten text ss := isWritten_iff_lex.2 (by decide +kernel)
  have hruled : Form.ruled members = .array [.matrix [.number "1", .number "2"]] := rfl
  refine ⟨parseProgram_eq_ok_iff_isWritten.2 ⟨ss, hwritten, rfl⟩, hwritten, rfl, hruled, ?_⟩
  rw [hruled]
  nofun

end MatrixCalc
