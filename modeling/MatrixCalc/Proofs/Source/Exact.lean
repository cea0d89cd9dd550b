import MatrixCalc.Proofs.Source.MachineComplete
import MatrixCalc.Proofs.Source.MachineSound
import MatrixCalc.Proofs.Source.WellFormed
import MatrixCalc.Source.Parser

/-!
# The parser is exact

A text is parsed if and only if its tokens are a sentence, and then to the tree of a derivation
(`parse_iff_derives`).

1. `read_eq_ok_iff`: a machine reads a text if the text lexes, the machine takes all its tokens and
   may end behind them.
2. With `State.statement_of_run` and `State.run_statement` this is derivability, for statements
   (`parseStatement_eq_ok_iff`) and likewise for programs (`parseProgram_eq_ok_iff`).
3. A run has one result, so a word has one tree (`statement_unique`, `program_unique`).
-/

namespace MatrixCalc

open Grammar

namespace Parser

variable {σ α : Type} {step : σ → Token → Option σ}

theorem feed_eq_ok_iff {s s' : σ} {ts : List (Located Token)} :
    feed step s ts = .ok s' ↔ (ts.map (·.item)).foldlM step s = some s' := by
  induction ts generalizing s with
  | nil =>
    show Except.ok s = Except.ok s' ↔ some s = some s'
    simp
  | cons t ts ih =>
    unfold feed
    rw [List.map_cons, List.foldlM_cons]
    cases step s t.item with
    | none => simp
    | some s₁ => exact ih

/-- A machine reads a text that lexes, all of whose tokens it takes, if it may end behind them. -/
theorem read_eq_ok_iff {start : σ} {finish? : σ → Option α} {text : String} {a : α} :
    read step start finish? (lex text) = .ok a ↔ ∃ w, Lexer.Splits text.toList w ∧
      ∃ s, w.foldlM step start = some s ∧ finish? s = some a := by
  unfold read
  constructor
  · intro h
    split at h
    · cases h
    · rename_i s hfeed
      split at h
      · cases h
      · rename_i hstuck
        split at h
        · rename_i b hb
          cases h
          exact ⟨_, Lexer.splits_iff_lex.2 ⟨hstuck, rfl⟩, s, feed_eq_ok_iff.1 hfeed, hb⟩
        · cases h
  · rintro ⟨w, hw, s, hs, ha⟩
    obtain ⟨hstuck, rfl⟩ := Lexer.splits_iff_lex.1 hw
    rw [feed_eq_ok_iff.2 hs]
    dsimp only
    rw [hstuck]
    dsimp only
    rw [ha]

end Parser

theorem parseStatement_eq_ok_iff {text : String} {t : Tree} :
    parseStatement text = .ok t ↔ ∃ w, Lexer.Splits text.toList w ∧ Statement w t := by
  unfold parseStatement
  rw [Parser.read_eq_ok_iff]
  constructor
  · rintro ⟨w, hw, s, hs, ht⟩
    exact ⟨w, hw, State.statement_of_run hs ht⟩
  · rintro ⟨w, hw, ht⟩
    exact ⟨w, hw, State.run_statement ht⟩

theorem parseProgram_eq_ok_iff {text : String} {ts : List Tree} :
    parseProgram text = .ok ts ↔ ∃ w, Lexer.Splits text.toList w ∧ Program w ts := by
  unfold parseProgram
  rw [Parser.read_eq_ok_iff]
  constructor
  · rintro ⟨w, hw, p, hp, ht⟩
    exact ⟨w, hw, ProgramState.program_of_run hp ht⟩
  · rintro ⟨w, hw, ht⟩
    exact ⟨w, hw, ProgramState.run_program ht⟩

/-! ## One tree for a text -/

theorem splits_unique {s : List Char} {u v : List Token} (hu : Lexer.Splits s u)
    (hv : Lexer.Splits s v) : u = v := by
  rw [← (Lexer.splits_iff.1 hu).2, (Lexer.splits_iff.1 hv).2]

theorem statement_unique {w : List Token} {t u : Tree} (ht : Statement w t)
    (hu : Statement w u) : t = u := by
  obtain ⟨s, hs, hst⟩ := State.run_statement ht
  obtain ⟨s', hs', hsu⟩ := State.run_statement hu
  rw [hs, Option.some.injEq] at hs'
  rw [← hs', hst, Option.some.injEq] at hsu
  exact hsu

theorem program_unique {w : List Token} {ts us : List Tree} (ht : Program w ts)
    (hu : Program w us) : ts = us := by
  obtain ⟨p, hp, hpt⟩ := ProgramState.run_program ht
  obtain ⟨p', hp', hpu⟩ := ProgramState.run_program hu
  rw [hp, Option.some.injEq] at hp'
  rw [← hp', hpt, Option.some.injEq] at hpu
  exact hpu

theorem isStatement_of_parseStatement {text : String} {t : Tree} (h : parseStatement text = .ok t) :
    t.IsStatement := by
  obtain ⟨w, hw, ht⟩ := parseStatement_eq_ok_iff.1 h
  exact ht.isStatement hw.isLexeme

theorem isStatement_of_parseProgram {text : String} {ts : List Tree}
    (h : parseProgram text = .ok ts) : ∀ t ∈ ts, t.IsStatement := by
  obtain ⟨w, hw, ht⟩ := parseProgram_eq_ok_iff.1 h
  exact ht.isStatement hw.isLexeme

/-- **Exactness.** A text is parsed as a statement, or as a program, if and only if its split into
tokens by the longest match is derived in the grammar, and to the trees of that derivation. A text
has one split, a word one tree, and every tree has its sums nested to the left, its signs on operands
and its one assignment, if any, at the root. -/
theorem parse_iff_derives (text : String) :
    (∀ t, parseStatement text = .ok t ↔ ∃ w, Lexer.Splits text.toList w ∧ Statement w t) ∧
    (∀ ts, parseProgram text = .ok ts ↔ ∃ w, Lexer.Splits text.toList w ∧ Program w ts) ∧
    (∀ u v, Lexer.Splits text.toList u → Lexer.Splits text.toList v → u = v) ∧
    (∀ w t u, Statement w t → Statement w u → t = u) ∧
    (∀ w ts us, Program w ts → Program w us → ts = us) ∧
    (∀ t, parseStatement text = .ok t → t.IsStatement) ∧
    (∀ ts, parseProgram text = .ok ts → ∀ t ∈ ts, t.IsStatement) :=
  ⟨fun _ => parseStatement_eq_ok_iff, fun _ => parseProgram_eq_ok_iff,
    fun _ _ => splits_unique, fun _ _ _ => statement_unique, fun _ _ _ => program_unique,
    fun _ => isStatement_of_parseStatement, fun _ => isStatement_of_parseProgram⟩

end MatrixCalc
