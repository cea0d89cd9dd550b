import MatrixCalc.Proofs.Source.Printing

/-!
# Blanks between tokens

Blanks may be written anywhere but inside a token: at every other place of a text that lexes, any
number of them leaves the tokens (`Splits.insert_blanks`), and so all that is read from the text but
the place of an error (`parse_insert_blanks`).

1. `TokenAcross` says of two texts that their joint lies inside a token of the whole. Behind the first
   pieces it does not (`not_tokenAcross_of_take`).
2. The pieces before the blanks are cut as they were: a token does not see them
   (`Longest.before_skipped`), and a comment before them or around them takes them in.
3. A machine reads items, and keeps their places only to report them (`withoutPlace_read`).
-/

namespace MatrixCalc

namespace Lexer

/-- The joint of the two texts lies inside a token of the whole: a part of the token stands before it
and a part behind it. Only names, the keyword and numerals are long enough for that. -/
def TokenAcross (a b : List Char) : Prop :=
  ∃ ps t before behind rest, Cut (a ++ b) (ps ++ [.token t]) rest ∧
    a = ps.flatMap Piece.chars ++ before ∧ t.text.toList = before ++ behind ∧
    before ≠ [] ∧ behind ≠ []

/-- Behind its first piece a text has its joint inside a token if the whole has. -/
theorem TokenAcross.append {p : Piece} {a b : List Char} (h : TokenAcross a b)
    (hp : Longest (p.chars ++ a ++ b) p (a ++ b)) : TokenAcross (p.chars ++ a) b := by
  obtain ⟨ps, t, before, behind, rest, hcut, rfl, ht, hbefore, hbehind⟩ := h
  refine ⟨p :: ps, t, before, behind, rest, .cons hp hcut, ?_, ht, hbefore, hbehind⟩
  rw [List.flatMap_cons, List.append_assoc]

/-- Blanks behind a token, or behind more text, leave it the longest match. -/
theorem Longest.insert_blanks {t : Token} {s more b blanks : List Char}
    (h : Longest (s ++ b) (.token t) (more ++ b)) (hblanks : ∀ c ∈ blanks, isSkipped c = true) :
    Longest (s ++ (blanks ++ b)) (.token t) (more ++ (blanks ++ b)) := by
  cases blanks with
  | nil => exact h
  | cons c blanks => exact h.of_append.before_skipped (hblanks c List.mem_cons_self) (blanks ++ b)

/-- A joint of two texts stands before the first piece of the whole, behind it, or inside it. -/
theorem Longest.joint {a b rest : List Char} {p : Piece} (h : Longest (a ++ b) p rest) :
    a = [] ∨ (∃ more, a = p.chars ++ more ∧ rest = more ++ b) ∨
      ∃ more, p.chars = a ++ more ∧ b = more ++ rest ∧ a ≠ [] ∧ more ≠ [] := by
  rcases List.append_eq_append_iff.1 h.append with hbehind | ⟨more, hp, hb⟩
  · exact .inr (.inl hbehind)
  · by_cases ha : a = []
    · exact .inl ha
    by_cases hmore : more = []
    · rw [hmore, List.append_nil] at hp
      rw [hmore, List.nil_append] at hb
      exact .inr (.inl ⟨[], by rw [hp, List.append_nil], hb.symm⟩)
    · exact .inr (.inr ⟨more, hp, hb, ha, hmore⟩)

/-- What is left behind a comment starts at a line end. -/
theorem Longest.dropWhile_of_comment {s r rest : List Char} (h : Longest s (.comment r) rest) :
    rest.dropWhile (· != '\n') = rest := by
  cases rest with
  | nil => rfl
  | cons d rest =>
    obtain rfl := h.head_of_comment
    rfl

/-- A comment goes on to the end of its line. -/
theorem Splits.comment_append {r s : List Char} {w : List Token} (hr : ∀ c ∈ r, (c != '\n') = true)
    (h : Splits (s.dropWhile (· != '\n')) w) : Splits ('#' :: r ++ s) w :=
  .skip rfl (piece?_eq_some_iff.1 (piece?_comment hr s)) h

section Insert

variable {a b blanks : List Char} {w : List Token} (hblanks : ∀ c ∈ blanks, isSkipped c = true)

include hblanks

theorem dropWhile_blanks (s : List Char) :
    (blanks ++ s).dropWhile (· != '\n') = s.dropWhile (· != '\n') := by
  refine List.dropWhile_append_of_pos fun c hc => bne_iff_ne.2 ?_
  rintro rfl
  exact absurd (hblanks _ hc) (by decide)

/-- Blanks inside a skipped piece leave the tokens behind it. -/
theorem Splits.insert_inside {p : Piece} {more rest : List Char} (hskipped : p.token? = none)
    (hl : Longest (p.chars ++ rest) p rest) (hp : p.chars = a ++ more) (ha : a ≠ [])
    (h : Splits rest w) : Splits (a ++ (blanks ++ (more ++ rest))) w := by
  cases p with
  | token t => cases hskipped
  | blank r =>
    obtain rfl : r = a ++ more := hp
    have hr := (Terminal.mem_blank.1 hl.isLexeme).2
    rw [List.forall_mem_append] at hr
    exact ((h.append_skipped hr.2).append_skipped hblanks).append_skipped hr.1
  | comment r =>
    obtain rfl : r = a ++ more := hp
    obtain ⟨c, a, rfl⟩ := List.exists_cons_of_ne_nil ha
    obtain ⟨r, hr, hline⟩ := Terminal.mem_comment.1 hl.isLexeme
    rw [List.cons_append, List.cons.injEq] at hr
    obtain ⟨rfl, rfl⟩ := hr
    rw [List.forall_mem_append] at hline
    refine Splits.comment_append hline.1 ?_
    rw [dropWhile_blanks hblanks, List.dropWhile_append_of_pos hline.2, hl.dropWhile_of_comment]
    exact h

/-- Blanks behind a skipped piece leave the tokens, if they leave those of the text behind it. -/
theorem Splits.insert_behind {p : Piece} {more : List Char} (hskipped : p.token? = none)
    (hl : Longest (p.chars ++ (more ++ b)) p (more ++ b)) (h : Splits (more ++ b) w)
    (hmore : Splits (more ++ (blanks ++ b)) w) : Splits (p.chars ++ (more ++ (blanks ++ b))) w := by
  cases p with
  | token t => cases hskipped
  | blank r => exact hmore.append_skipped (Terminal.mem_blank.1 hl.isLexeme).2
  | comment r =>
    obtain ⟨r, rfl, hline⟩ := Terminal.mem_comment.1 hl.isLexeme
    refine Splits.comment_append hline ?_
    cases more with
    | nil =>
      -- the comment takes the blanks in, and ends before the text that was behind it
      have hb := hl.dropWhile_of_comment
      rw [List.nil_append] at hb h ⊢
      rw [dropWhile_blanks hblanks, hb]
      exact h
    | cons d more =>
      obtain rfl := hl.head_of_comment
      exact hmore

/-- Blanks that are written anywhere but inside a token leave the tokens of a text. -/
theorem Splits.insert_blanks (h : Splits (a ++ b) w) (hacross : ¬ TokenAcross a b) :
    Splits (a ++ (blanks ++ b)) w := by
  generalize htext : a ++ b = text at h
  induction h generalizing a with
  | nil =>
    obtain ⟨rfl, rfl⟩ := List.append_eq_nil_iff.1 htext
    exact Splits.nil.append_skipped hblanks
  | @token s rest t w hl hrest ih =>
    subst htext
    rcases hl.joint with rfl | ⟨more, rfl, rfl⟩ | ⟨more, ht, rfl, ha, hmore⟩
    · exact (Splits.token hl hrest).append_skipped hblanks
    · have hmore := ih (fun h => hacross (h.append hl)) rfl
      have hl' := hl.insert_blanks hblanks
      exact .token hl' hmore
    · exact absurd ⟨[], t, a, more, rest, .cons hl (.nil rest), rfl, ht, ha, hmore⟩ hacross
  | @skip s rest p w hp hl hrest ih =>
    subst htext
    rcases hl.joint with rfl | ⟨more, rfl, rfl⟩ | ⟨more, ht, rfl, ha, -⟩
    · exact (Splits.skip hp hl hrest).append_skipped hblanks
    · have hmore := ih (fun h => hacross (h.append hl)) rfl
      rw [List.append_assoc] at hl ⊢
      exact Splits.insert_behind hblanks hp hl hrest hmore
    · rw [← List.append_assoc, ← ht] at hl
      exact Splits.insert_inside hblanks hp hl ht ha hrest

end Insert

/-- Behind the first pieces of a text no token goes on. -/
theorem not_tokenAcross_of_take {a b : List Char} (n : Nat)
    (h : ((pieces (a ++ b)).1.take n).flatMap Piece.chars = a) : ¬ TokenAcross a b := by
  rintro ⟨ps, t, before, behind, rest, hcut, ha, ht, hbefore, hbehind⟩
  have hfirst := List.take_prefix n (pieces (a ++ b)).1
  have hps : ps ++ [.token t] <+: (pieces (a ++ b)).1 := by
    rw [hcut.pieces_eq]
    exact List.prefix_append ..
  generalize (pieces (a ++ b)).1.take n = qs at h hfirst
  rw [ha] at h
  -- the pieces before the joint reach over the token, or not even up to it
  rcases Nat.lt_or_ge ps.length qs.length with hlong | hshort
  · have hlonger : ps ++ [.token t] <+: qs := by
      refine List.prefix_of_prefix_length_le hps hfirst ?_
      rw [List.length_append, List.length_singleton]
      omega
    obtain ⟨more, rfl⟩ := hlonger
    rw [List.flatMap_append, List.flatMap_append, List.append_assoc, List.append_cancel_left_eq,
      List.flatMap_singleton, Piece.chars, ht, List.append_assoc, List.append_right_eq_self] at h
    exact hbehind (List.append_eq_nil_iff.1 h).1
  · have hshorter : qs <+: ps :=
      List.prefix_of_prefix_length_le hfirst ((List.prefix_append ..).trans hps) hshort
    obtain ⟨more, rfl⟩ := hshorter
    rw [List.flatMap_append, List.append_assoc, List.self_eq_append_right] at h
    exact hbefore (List.append_eq_nil_iff.1 h).2

end Lexer

/-! ## Reading -/

/-- The result of reading a text, with the message of an error but not its place. -/
def withoutPlace {α : Type} (r : Except ParseError α) : Except String α :=
  r.mapError fun e => e.report.wording

namespace Parser

variable {σ α : Type} {step : σ → Token → Option σ} {start : σ} {finish? : σ → Option α}

/-- Which token a machine stops at, as a word, does not depend on places. -/
theorem mapError_feed (step : σ → Token → Option σ) (s : σ) {ts us : List (Located Token)}
    (h : ts.map (·.item) = us.map (·.item)) :
    (feed step s ts).mapError (·.item) = (feed step s us).mapError (·.item) := by
  induction ts generalizing us s with
  | nil =>
    obtain rfl := List.map_eq_nil_iff.1 h.symm
    rfl
  | cons t ts ih =>
    cases us with
    | nil => cases h
    | cons u us =>
      rw [List.map_cons, List.map_cons, List.cons.injEq] at h
      unfold feed
      rw [h.1]
      cases step s u.item with
      | none => exact congrArg Except.error h.1
      | some s' => exact ih s' h.2

/-- What is read from two texts that split into the same tokens is the same but for places. -/
theorem withoutPlace_read {text text' : String} {w : List Token}
    (h : Lexer.Splits text.toList w) (h' : Lexer.Splits text'.toList w) :
    withoutPlace (read step start finish? (lex text)) =
      withoutPlace (read step start finish? (lex text')) := by
  obtain ⟨hstuck, hitems⟩ := Lexer.splits_iff_lex.1 h
  obtain ⟨hstuck', hitems'⟩ := Lexer.splits_iff_lex.1 h'
  have hfeed := mapError_feed step start (hitems.trans hitems'.symm)
  unfold read
  rw [hstuck, hstuck']
  generalize feed step start (lex text).tokens = r at hfeed ⊢
  generalize feed step start (lex text').tokens = r' at hfeed ⊢
  cases r with
  | error t =>
    cases r' with
    | error t' =>
      have hitem : t.item = t'.item := Except.error.inj hfeed
      exact congrArg (fun item => Except.error (Offence.token item).wording) hitem
    | ok s' => cases hfeed
  | ok s =>
    cases r' with
    | error t' => cases hfeed
    | ok s' =>
      obtain rfl : s = s' := Except.ok.inj hfeed
      dsimp only
      cases finish? s <;> rfl

end Parser

/-- **Blanks between tokens.** In a text that lexes, spaces, tabs, form feeds and carriage returns at any
place that is not inside a token leave what is read from it, as a statement and as a program: the same
trees, or an error of the same wording. -/
theorem parse_insert_blanks (a b blanks : String) (hlex : (lex (a ++ b)).stuck = none)
    (hblanks : ∀ c ∈ blanks.toList, c = ' ' ∨ c = '\t' ∨ c = '\x0c' ∨ c = '\r')
    (hplace : ¬ Lexer.TokenAcross a.toList b.toList) :
    withoutPlace (parseStatement (a ++ blanks ++ b)) = withoutPlace (parseStatement (a ++ b)) ∧
    withoutPlace (parseProgram (a ++ blanks ++ b)) = withoutPlace (parseProgram (a ++ b)) := by
  have hsplit := Lexer.splits_iff_lex.2 ⟨hlex, rfl⟩
  have hskipped : ∀ c ∈ blanks.toList, Lexer.isSkipped c = true :=
    fun c hc => Lexer.isSkipped_iff.2 (hblanks c hc)
  have hinsert : Lexer.Splits (a ++ blanks ++ b).toList ((lex (a ++ b)).tokens.map (·.item)) := by
    rw [String.toList_append] at hsplit
    rw [String.toList_append, String.toList_append, List.append_assoc]
    exact hsplit.insert_blanks hskipped hplace
  exact ⟨Parser.withoutPlace_read hinsert hsplit, Parser.withoutPlace_read hinsert hsplit⟩

/-- A numeral ends before a second minus and before blanks, though a mark and a sign stand in it. -/
theorem parse_insert_blanks_numeral :
    let a := "x = -1e-3"
    let b := "-detx # ;("
    let blanks := "\t\x0c \r"
    (lex (a ++ b)).stuck = none ∧
    (∀ c ∈ blanks.toList, c = ' ' ∨ c = '\t' ∨ c = '\x0c' ∨ c = '\r') ∧
    ¬ Lexer.TokenAcross a.toList b.toList ∧
    withoutPlace (parseStatement (a ++ blanks ++ b)) = withoutPlace (parseStatement (a ++ b)) ∧
    withoutPlace (parseProgram (a ++ blanks ++ b)) = withoutPlace (parseProgram (a ++ b)) := by
  intro a b blanks
  have hlex : (lex (a ++ b)).stuck = none := Option.isNone_iff_eq_none.1 (by decide +kernel)
  have hskipped : blanks.toList.all Lexer.isSkipped = true := by decide +kernel
  have hblanks : ∀ c ∈ blanks.toList, c = ' ' ∨ c = '\t' ∨ c = '\x0c' ∨ c = '\r' :=
    fun c hc => Lexer.isSkipped_iff.1 (List.all_eq_true.1 hskipped c hc)
  have hplace : ¬ Lexer.TokenAcross a.toList b.toList :=
    Lexer.not_tokenAcross_of_take 6 (by decide +kernel)
  exact ⟨hlex, hblanks, hplace, parse_insert_blanks a b blanks hlex hblanks hplace⟩

end MatrixCalc
