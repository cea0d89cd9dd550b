import MatrixCalc.Proofs.Source.OneStatement

/-!
# Trees in writing

Every tree that a text can have, it has from its own text: `Tree.source` writes a tree, and a
statement is read back from there. So the trees of texts are exactly the statements
(`exists_parseStatement_iff`).

1. `spaced` writes tokens with a space behind each. No lexeme reaches over the space
   (`longest_spaced`), so the tokens are cut as they were written (`splits_spaced`).
2. `Tree.tokens` writes a list with brackets and a matrix with braces. Braces are not reclassified, and
   brackets keep a list because one of its members is no literal.
3. `writes_tokens` derives the tree from its tokens, by induction over trees. A tree that is no sum is
   derived as a signed operand, which is what stands to the right of an operator and behind a sign.
-/

namespace MatrixCalc

open Grammar

/-! ## Tokens with spaces -/

/-- The tokens with a space behind each. -/
def spaced (w : List Token) : List Char := w.flatMap fun t => t.text.toList ++ [' ']

namespace Lexer

theorem chars_ne_nil {p : Piece} (hp : p.IsLexeme) : p.chars ≠ [] := by
  intro hnil
  obtain ⟨q, rest, hq, -, -⟩ := exists_piece? hp []
  rw [hnil] at hq
  cases hq

/-- A lexeme that starts as a token does holds no skipped character. -/
theorem not_skipped_of_starts_as_token {t : Token} (ht : (Piece.token t).IsLexeme) {q : Piece}
    (hq : q.IsLexeme) (hstart : (Piece.token t).chars <+: q.chars) {d : Char} (hd : d ∈ q.chars) :
    isSkipped d = false := by
  rw [Bool.eq_false_iff]
  intro hskip
  obtain ⟨c, r, hc⟩ := List.exists_cons_of_ne_nil (chars_ne_nil ht)
  have hmem : c ∈ (Piece.token t).chars := hc ▸ List.mem_cons_self
  obtain ⟨more, hmore⟩ := hstart
  rw [hc, List.cons_append] at hmore
  have hhead : c ∈ q.chars := hmore ▸ List.mem_cons_self
  -- the lexeme is skipped as a whole, and then so is the token, from its first character on
  cases q with
  | token u => cases token?_of_skipped_mem hq hd hskip
  | blank b =>
    cases token?_of_skipped_mem ht hmem ((Terminal.mem_blank.1 hq).2 c hhead)
  | comment b =>
    obtain ⟨r', hr', -⟩ := Terminal.mem_comment.1 hq
    obtain ⟨rfl, -⟩ := List.cons.inj (hmore.trans hr')
    obtain ⟨_, htoken⟩ := exists_comment_of_hash_mem ht hmem
    cases htoken

/-- A token that is the longest match in front of a text stays so with a skipped character behind the
text. -/
theorem Longest.before_skipped {t : Token} {s more : List Char} (h : Longest s (.token t) more)
    {c : Char} (hc : isSkipped c = true) (rest : List Char) :
    Longest (s ++ c :: rest) (.token t) (more ++ c :: rest) := by
  refine ⟨h.isLexeme, by rw [← h.append, List.append_assoc], fun q hq hstart => ?_⟩
  rcases Nat.lt_or_ge s.length q.chars.length with hlong | hshort
  · exfalso
    have hover : s ++ [c] <+: q.chars := by
      refine List.prefix_of_prefix_length_le ⟨rest, List.append_cons .. |>.symm⟩ hstart ?_
      rw [List.length_append, List.length_singleton]
      omega
    have hmem : c ∈ q.chars := hover.subset (List.mem_append_right _ (List.mem_singleton_self c))
    have htoken : (Piece.token t).chars <+: q.chars :=
      List.IsPrefix.trans ⟨more, h.append⟩ ((List.prefix_append s [c]).trans hover)
    rw [not_skipped_of_starts_as_token h.isLexeme hq htoken hmem] at hc
    cases hc
  · exact h.longest q hq (List.prefix_of_prefix_length_le hstart (List.prefix_append ..) hshort)

/-- No lexeme starts as a token does and goes on over a space. -/
theorem longest_spaced {t : Token} (ht : (Piece.token t).IsLexeme) (rest : List Char) :
    Longest ((Piece.token t).chars ++ ' ' :: rest) (.token t) (' ' :: rest) := by
  have hlongest : Longest (Piece.token t).chars (.token t) [] :=
    ⟨ht, List.append_nil _, fun _ _ h => h.length_le⟩
  exact hlongest.before_skipped rfl rest

/-- Tokens with spaces are cut as they were written. -/
theorem splits_spaced {w : List Token} (h : Lexical w) : Splits (spaced w) w := by
  induction w with
  | nil => exact .nil
  | cons t w ih =>
    rw [lexical_cons] at h
    unfold spaced
    rw [List.flatMap_cons, List.append_assoc]
    exact .token (longest_spaced h.1 _) ((ih h.2).cons_skipped rfl)

end Lexer

/-! ## The tokens of a tree -/

namespace Tree

mutual
/-- The tokens of a tree, with brackets for lists and braces for matrices. -/
def tokens : Tree → List Token
  | .number text => [.number text]
  | .variable name => [.name name]
  | .signed sign t => (if sign = "-" then .minus else .plus) :: t.tokens
  | .group t => .openParen :: t.tokens ++ [.closeParen]
  | .sum l r => l.tokens ++ .plus :: r.tokens
  | .subtract l r => l.tokens ++ .minus :: r.tokens
  | .array ts => .openBracket :: (memberTokens ts).tail ++ [.closeBracket]
  | .matrix ts => .openBrace :: (memberTokens ts).tail ++ [.closeBrace]
  | .determinant t => .det :: .openParen :: t.tokens ++ [.closeParen]
  | .assign name t => .name name :: .equals :: t.tokens
  | .print t => t.tokens
  | .foreign _ => []
/-- The tokens of members, each behind a comma. -/
def memberTokens : List Tree → List Token
  | [] => []
  | t :: ts => .comma :: (t.tokens ++ memberTokens ts)
end

/-- The text of a tree. -/
def source (t : Tree) : String := String.ofList (spaced t.tokens)

end Tree

namespace Grammar

/-- The word is of lexemes, the tree is derived from it, and if it is no sum, then as an operand. -/
structure Writes (w : List Token) (t : Tree) : Prop where
  lexical : Lexical w
  expression : Expression w t
  signed : t.isSum = false → Signed w t

/-- The word is of lexemes, and the members are derived from it. -/
structure WritesMembers (w : List Token) (ts : List Tree) : Prop where
  lexical : Lexical w
  members : Members w ts

theorem Lexical.between {w : List Token} {a b : Token} (hw : Lexical w)
    (ha : (Piece.token a).IsLexeme) (hb : (Piece.token b).IsLexeme) : Lexical (a :: w ++ [b]) :=
  lexical_append.2 ⟨lexical_cons.2 ⟨ha, hw⟩, List.forall_mem_singleton.2 hb⟩

theorem Lexical.operator {w v : List Token} {a : Token} (hw : Lexical w)
    (ha : (Piece.token a).IsLexeme) (hv : Lexical v) : Lexical (w ++ a :: v) :=
  lexical_append.2 ⟨hw, lexical_cons.2 ⟨ha, hv⟩⟩

theorem Signed.writes {w : List Token} {t : Tree} (h : Signed w t) (hw : Lexical w) : Writes w t :=
  ⟨hw, .signed h, fun _ => h⟩

theorem Atom.writes {w : List Token} {t : Tree} (h : Atom w t) (hw : Lexical w) : Writes w t :=
  (Signed.atom h).writes hw

theorem Writes.one {w : List Token} {t : Tree} (h : Writes w t) : WritesMembers w [t] :=
  ⟨h.lexical, .one h.expression⟩

end Grammar

namespace Tree

/-- A bracket is a list if one of its members is no literal. -/
theorem ofBracket_eq_array {ts : List Tree} (h : ∃ t ∈ ts, t.isLiteral = false) :
    ofBracket ts = .array ts := by
  obtain ⟨t, ht, hliteral⟩ := h
  refine if_neg fun hall => ?_
  rw [List.all_eq_true.1 hall t ht] at hliteral
  cases hliteral

mutual
/-- An expression is derived from its tokens. -/
theorem writes_tokens : ∀ {t : Tree}, t.IsExpression → Writes t.tokens t
  | .number text, h => (Atom.number text).writes (List.forall_mem_singleton.2 h)
  | .variable name, h => (Atom.variable name).writes (List.forall_mem_singleton.2 h)
  | .signed sign t, ⟨hsign, ht, hsum⟩ => by
    have hw := writes_tokens ht
    unfold tokens
    rcases hsign with rfl | rfl
    · exact (Signed.plus (hw.signed hsum)).writes (lexical_cons.2 ⟨trivial, hw.lexical⟩)
    · exact (Signed.minus (hw.signed hsum)).writes (lexical_cons.2 ⟨trivial, hw.lexical⟩)
  | .group t, h => by
    have hw := writes_tokens (t := t) h
    exact (Atom.group hw.expression).writes (hw.lexical.between trivial trivial)
  | .sum l r, ⟨hl, hr, hsum⟩ => by
    have hl := writes_tokens hl
    have hr := writes_tokens hr
    exact ⟨hl.lexical.operator trivial hr.lexical, .sum hl.expression (hr.signed hsum), nofun⟩
  | .subtract l r, ⟨hl, hr, hsum⟩ => by
    have hl := writes_tokens hl
    have hr := writes_tokens hr
    exact ⟨hl.lexical.operator trivial hr.lexical, .subtract hl.expression (hr.signed hsum), nofun⟩
  | .array [], _ => Atom.emptyBracket.writes (Lexical.between (w := []) nofun trivial trivial)
  | .array (t :: ts), ⟨⟨ht, hts⟩, hliteral⟩ => by
    have hm := writes_memberTokens hts (writes_tokens ht).one
    have hatom := Atom.bracket hm.members
    rw [List.singleton_append,
      ofBracket_eq_array (hliteral.resolve_left (List.cons_ne_nil t ts))] at hatom
    exact hatom.writes (hm.lexical.between trivial trivial)
  | .matrix [], _ => Atom.emptyBrace.writes (Lexical.between (w := []) nofun trivial trivial)
  | .matrix (t :: ts), ⟨ht, hts⟩ => by
    have hm := writes_memberTokens hts (writes_tokens ht).one
    exact (Atom.brace hm.members).writes (hm.lexical.between trivial trivial)
  | .determinant t, h => by
    have hw := writes_tokens (t := t) h
    exact (Atom.determinant hw.expression).writes
      (lexical_cons.2 ⟨trivial, hw.lexical.between trivial trivial⟩)
/-- Members in writing go on with more members. -/
theorem writes_memberTokens : ∀ {ts us : List Tree} {w : List Token}, AreExpressions ts →
    WritesMembers w us → WritesMembers (w ++ memberTokens ts) (us ++ ts)
  | [], us, w, _, hm => by
    unfold memberTokens
    rwa [List.append_nil, List.append_nil]
  | t :: ts, us, w, ⟨ht, hts⟩, hm => by
    have hw := writes_tokens ht
    -- members are derived from left to right, so the next one joins those before it
    have hnext : WritesMembers (w ++ .comma :: t.tokens) (us ++ [t]) :=
      ⟨hm.lexical.operator trivial hw.lexical, .more hm.members hw.expression⟩
    have hrest := writes_memberTokens hts hnext
    unfold memberTokens
    rwa [List.append_assoc, List.append_assoc] at hrest
end

/-- A statement is derived from its tokens. -/
theorem statement_tokens {t : Tree} (h : t.IsStatement) :
    Lexical t.tokens ∧ Statement t.tokens t := by
  cases t with
  | assign name t =>
    have hw := writes_tokens h.2
    exact ⟨lexical_cons.2 ⟨h.1, lexical_cons.2 ⟨trivial, hw.lexical⟩⟩, .assign name hw.expression⟩
  | print t =>
    have hw := writes_tokens (t := t) h
    exact ⟨hw.lexical, .print hw.expression⟩
  | _ => cases h

theorem parseStatement_source {t : Tree} (h : t.IsStatement) : parseStatement t.source = .ok t := by
  obtain ⟨hw, ht⟩ := statement_tokens h
  refine parseStatement_eq_ok_iff.2 ⟨t.tokens, ?_, ht⟩
  unfold source
  rw [String.toList_ofList]
  exact Lexer.splits_spaced hw

/-- **The trees of texts.** A tree is that of some text if and only if it is a statement as texts write
them, and then it is read from its own text. -/
theorem exists_parseStatement_iff (t : Tree) :
    ((∃ text, parseStatement text = .ok t) ↔ t.IsStatement) ∧
    (t.IsStatement ↔ parseStatement t.source = .ok t) := by
  have hread : t.IsStatement → parseStatement t.source = .ok t := parseStatement_source
  constructor
  · exact ⟨fun ⟨_, h⟩ => isStatement_of_parseStatement h, fun h => ⟨t.source, hread h⟩⟩
  · exact ⟨hread, isStatement_of_parseStatement⟩

example : (print (.signed "-" (.array [.number "1", .matrix [.variable "x"]]))).source =
    "- [ 1 , \x7b x \x7d ] " := by
  decide +kernel

end Tree

end MatrixCalc
