import Mathlib.Data.List.Forall2
import MatrixCalc.Proofs.Eval.Faults
import MatrixCalc.Proofs.Shell.Statements
import MatrixCalc.Proofs.Source.Trimming

/-!
# Programs line by line

A program whose statements all succeed may as well be given to the shell line by line: the lines
leave the store and the results of evaluating the whole text, and write what it prints
(`lines_simulate_evalText`).

1. No program starts like a command (`isPlain_of_program`): no token starts with a colon or a question
   mark, and no statement with a name and a parenthesis.
2. Trimming keeps the statements of a line. So each line of a program is run as its own statements
   (`IsProgramLine`), and these are, one line after another, the statements of the text
   (`exists_programLines`).
3. Statements that succeed do so in several runs, one behind the other (`replies_of_programLines`).
-/

namespace MatrixCalc

open Text Grammar

/-! ## Programs and commands -/

namespace Lexer

/-- What is cut off the head of a text gives the first token, or none if it is skipped. -/
theorem Splits.of_piece? {s rest : List Char} {p : Piece} {w : List Token} (h : Splits s w)
    (hp : piece? s = some (p, rest)) : ∃ v, Splits rest v ∧ w = p.token?.toList ++ v := by
  rw [splits_iff, pieces_of_eq_some hp] at h
  obtain ⟨hrest, rfl⟩ := h
  refine ⟨_, splits_iff.2 ⟨hrest, rfl⟩, ?_⟩
  cases p <;> rfl

/-- Nothing starts with the mark of a command. -/
theorem not_splits_mark {c : Char} (hc : c = ':' ∨ c = '?') (s : List Char) (w : List Token) :
    ¬ Splits (c :: s) w := by
  have hnone : piece? (c :: s) = none := by
    rcases hc with rfl | rfl
    all_goals
      unfold piece?
      dsimp only
      rw [if_neg (by decide), if_neg (by decide), if_neg (by decide),
        takeNumber?_cons_eq_none (by decide) (by decide)]
      rfl
  rw [splits_iff, pieces_of_eq_none hnone]
  exact fun h => List.cons_ne_nil _ _ h.1

/-- A name and a parenthesis are the first two tokens of a call. -/
theorem Splits.of_call {c : Char} {x s : List Char} {w : List Token} (hc : isNameStart c = true)
    (hx : x.all isNameRest = true) (h : Splits (c :: x ++ '(' :: s) w) :
    ∃ v, w = .ofWord (c :: x) :: .openParen :: v := by
  obtain ⟨v, hv, rfl⟩ := h.of_piece? (piece?_word hc (List.all_eq_true.1 hx) ('(' :: s))
  rw [List.takeWhile_cons_of_neg (by decide), List.append_nil]
  rw [List.dropWhile_cons_of_neg (by decide)] at hv
  obtain ⟨v', -, rfl⟩ := hv.of_piece? (piece?_ofChar? rfl s)
  exact ⟨v', rfl⟩

end Lexer

/-- A name and a parenthesis start no program. -/
theorem not_program_call (x : String) (w : List Token) (ts : List Tree) :
    ¬ Program (.name x :: .openParen :: w) ts := by
  rw [ProgramState.program_iff_run]
  rintro ⟨p, hp, -⟩
  cases hp

theorem program_nil {ts : List Tree} (h : Program [] ts) : ts = [] :=
  program_unique h (.mk .nil .vacant)

namespace Command

/-- A line with a program is no command, unless it is blank or a comment. -/
theorem isPlain_of_program {s : List Char} {w : List Token} {ts : List Tree}
    (hs : Lexer.Splits s w) (hts : Program w ts) (hskip : ¬ (s = [] ∨ s.head? = some '#')) :
    IsPlain s := by
  rw [not_or] at hskip
  have hmark : ∀ c r, c = ':' ∨ c = '?' → s ≠ c :: r := by
    rintro c r hc rfl
    exact Lexer.not_splits_mark hc r w hs
  refine ⟨hskip.1, hskip.2, ?_, ?_, ?_, ?_⟩
  · intro hword
    simp only [List.mem_cons, List.not_mem_nil, or_false] at hword
    rcases hword with rfl | rfl | rfl | rfl <;> exact hmark _ _ (.inl rfl) rfl
  · rintro ⟨r, rfl⟩
    exact hmark _ _ (.inr rfl) rfl
  · rintro ⟨r, rfl⟩
    exact hmark _ _ (.inr rfl) rfl
  · simp only [List.forall_mem_cons, List.not_mem_nil, false_imp_iff, implies_true, and_true]
    constructor
    · rintro ⟨⟨r, rfl⟩, -⟩
      obtain ⟨v, rfl⟩ := Lexer.Splits.of_call (c := 'i') (x := "nspect".toList) (by decide)
        (by decide) hs
      exact not_program_call _ _ _ hts
    · rintro ⟨⟨r, rfl⟩, -⟩
      obtain ⟨v, rfl⟩ := Lexer.Splits.of_call (c := 'i') (x := []) (by decide) (by decide) hs
      exact not_program_call _ _ _ hts

end Command

namespace Shell

/-- The line holds the statements, trimmed or not. It is run as these and as nothing else; only a line
without statements may be skipped. -/
structure IsProgramLine (line : String) (ts : List Tree) : Prop where
  parse : parseProgram line = .ok ts
  trimmed : parseProgram (strip line) = .ok ts
  command : Command.ofLine line = .statements (strip line) ∨ Command.ofLine line = .skip ∧ ts = []

/-- A program on a single line. -/
theorem isProgramLine_of_parseProgram {line : String} {ts : List Tree}
    (h : parseProgram line = .ok ts) (hline : IsLine line) : IsProgramLine line ts := by
  obtain ⟨w, hw, hts⟩ := parseProgram_eq_ok_iff.1 h
  have hstrip := Lexer.splits_stripChars hw hline
  refine ⟨h, parseProgram_eq_ok_iff.2 ⟨w, by rwa [toList_strip], hts⟩, ?_⟩
  by_cases hskip : stripChars line.toList = [] ∨ (stripChars line.toList).head? = some '#'
  · right
    refine ⟨if_pos hskip, ?_⟩
    have hsplits : Lexer.Splits (stripChars line.toList) [] := by
      rcases hskip with hnil | hhead
      · rw [hnil]
        exact .nil
      · exact Lexer.splits_comment hhead fun h => hline (mem_of_mem_stripChars h)
    obtain rfl := splits_unique hstrip hsplits
    exact program_nil hts
  · exact .inl (Command.ofTrimmed_of_isPlain (Command.isPlain_of_program hstrip hts hskip))

/-- A line with a program runs its statements. -/
theorem IsProgramLine.runLine_eq {line : String} {ts : List Tree} (h : IsProgramLine line ts)
    (files : FileTree) (s : Session) : runLine files line s = runTrees s ts := by
  rcases h.command with hc | ⟨hc, rfl⟩
  · rw [runLine_of_statements hc]
    unfold runText
    rw [h.trimmed]
  · unfold runLine runLineWithin
    rw [hc]
    rfl

end Shell

/-! ## Lines -/

/-- The lines of a text, without the line feeds between them. -/
def Text.splitLines (text : String) : List String := (text.toList.splitOn '\n').map String.ofList

theorem Text.splitLines_of_isLine {text : String} (h : IsLine text) : splitLines text = [text] := by
  unfold splitLines
  rw [List.splitOn_eq_splitOnP, List.splitOnP_eq_singleton, List.map_singleton, String.ofList_toList]
  intro c hc
  rw [beq_eq_false_iff_ne]
  rintro rfl
  exact h hc

theorem Text.splitLines_append (a b : String) :
    splitLines (a ++ "\n" ++ b) = splitLines a ++ splitLines b := by
  have hchars : (a ++ "\n" ++ b).toList = a.toList ++ '\n' :: b.toList := by
    simp
  unfold splitLines
  rw [hchars, ← List.map_append]
  congr 1
  exact List.splitOnP_append_cons _ _ (beq_self_eq_true '\n')

namespace Shell

/-- **Lines of a program.** Each line of a program is a program, and the statements of the lines are
those of the text. -/
theorem exists_programLines {text : String} {ts : List Tree} (h : parseProgram text = .ok ts) :
    ∃ tss, List.Forall₂ IsProgramLine (splitLines text) tss ∧ tss.flatten = ts := by
  induction hn : text.toList.length using Nat.strong_induction_on generalizing text ts with
  | h n ih =>
    by_cases hline : IsLine text
    · refine ⟨[ts], ?_, List.append_nil ts⟩
      rw [splitLines_of_isLine hline]
      exact .cons (isProgramLine_of_parseProgram h hline) .nil
    · -- the text is cut at any of its line ends
      obtain ⟨a, b, hab⟩ := List.append_of_mem (not_not.1 hline)
      obtain rfl : text = String.ofList a ++ "\n" ++ String.ofList b := by
        rw [← String.toList_inj, hab]
        simp
      rw [hab, List.length_append, List.length_cons] at hn
      obtain ⟨us, vs, hus, hvs, rfl⟩ :=
        (parseProgram_separator_iff rfl rfl (c := '\n') fun h => absurd h (by decide)).1 h
      obtain ⟨uss, huss, rfl⟩ := ih a.length (by omega) hus (by rw [String.toList_ofList])
      obtain ⟨vss, hvss, rfl⟩ := ih b.length (by omega) hvs (by rw [String.toList_ofList])
      refine ⟨uss ++ vss, ?_, List.flatten_append⟩
      rw [splitLines_append]
      exact List.rel_append huss hvss

end Shell

/-! ## Statements in turn -/

namespace Tree

theorem exists_of_evalAll_cons_ok {t : Tree} {ts : List Tree} {s s'' : Store} {xs : List Value}
    (h : evalAll (t :: ts) s = (.ok xs, s'')) : ∃ v s' vs,
      t.eval s = (.ok v, s') ∧ evalAll ts s' = (.ok vs, s'') ∧ xs = v :: vs := by
  cases ht : t.eval s with
  | mk r s' =>
    cases r with
    | error f =>
      rw [evalAll_cons_error ht] at h
      cases h
    | ok v =>
      rw [evalAll_cons_ok ht] at h
      cases hts : evalAll ts s' with
      | mk r s₁ =>
        rw [hts] at h
        cases r with
        | error f => cases h
        | ok vs =>
          cases h
          exact ⟨v, s', vs, rfl, hts, rfl⟩

theorem length_of_evalAll {ts : List Tree} {s s' : Store} {vs : List Value}
    (h : evalAll ts s = (.ok vs, s')) : ts.length = vs.length := by
  induction ts generalizing s vs with
  | nil =>
    cases h
    rfl
  | cons t ts ih =>
    obtain ⟨v, s₁, vs, -, hts, rfl⟩ := exists_of_evalAll_cons_ok h
    rw [List.length_cons, List.length_cons, ih hts]

/-- Statements that all succeed do so in two runs, one behind the other. -/
theorem exists_of_evalAll_append_ok {ts us : List Tree} {s s'' : Store} {xs : List Value}
    (h : evalAll (ts ++ us) s = (.ok xs, s'')) : ∃ vs s' ws,
      evalAll ts s = (.ok vs, s') ∧ evalAll us s' = (.ok ws, s'') ∧ xs = vs ++ ws := by
  induction ts generalizing s xs with
  | nil => exact ⟨[], s, xs, rfl, h, rfl⟩
  | cons t ts ih =>
    obtain ⟨v, s₁, vs, ht, hts, rfl⟩ := exists_of_evalAll_cons_ok h
    obtain ⟨vs, s', ws, hvs, hws, rfl⟩ := ih hts
    refine ⟨v :: vs, s', ws, ?_, hws, rfl⟩
    rw [evalAll_cons_ok ht, hvs]
    rfl

theorem succeed_of_evalAll {ts : List Tree} {s s' : Store} {vs : List Value}
    (h : evalAll ts s = (.ok vs, s')) : succeed ts s = (vs, s') := by
  induction ts generalizing s vs with
  | nil =>
    cases h
    rfl
  | cons t ts ih =>
    obtain ⟨v, s₁, vs, ht, hts, rfl⟩ := exists_of_evalAll_cons_ok h
    unfold succeed
    rw [ht]
    dsimp only
    rw [ih hts]

end Tree

namespace Session

/-- The session behind statements that have left the store and recorded the values. -/
def recordAll (s : Session) (store : Store) (vs : List Value) : Session :=
  ⟨store, s.results ++ vs, vs.getLast?.or s.last⟩

theorem recordAll_append (s : Session) (store store' : Store) (vs ws : List Value) :
    (s.recordAll store vs).recordAll store' ws = s.recordAll store' (vs ++ ws) := by
  unfold recordAll
  rw [List.append_assoc, List.getLast?_append, Option.or_assoc]

theorem runAll_of_evalAll {s : Session} {ts : List Tree} {store : Store} {vs : List Value}
    (h : Tree.evalAll ts s.store = (.ok vs, store)) :
    s.runAll ts = (.ok (), s.recordAll store vs) := by
  induction ts generalizing s vs with
  | nil =>
    cases h
    unfold runAll recordAll
    rw [List.append_nil]
    rfl
  | cons t ts ih =>
    obtain ⟨v, s₁, vs, ht, hts, rfl⟩ := Tree.exists_of_evalAll_cons_ok h
    have hrun : s.run t = (.ok v, s.recordAll s₁ [v]) := by
      unfold run
      rw [ht]
      rfl
    unfold runAll
    rw [hrun]
    dsimp only
    rw [ih hts, recordAll_append]
    rfl

end Session

namespace Shell

theorem printout_append {ts us : List Tree} {vs ws : List Value} (h : ts.length = vs.length) :
    printout (ts ++ us) (vs ++ ws) = printout ts vs ++ printout us ws := by
  unfold printout
  rw [List.zip_append h, List.filter_append, List.map_append, concat_append]

theorem runTrees_of_evalAll {s : Session} {ts : List Tree} {store : Store} {vs : List Value}
    (h : Tree.evalAll ts s.store = (.ok vs, store)) :
    runTrees s ts = ⟨s.recordAll store vs, printout ts vs, "", .goOn⟩ := by
  rw [runTrees_eq, Session.runAll_of_evalAll h, Tree.succeed_of_evalAll h]
  rfl

/-! ## Lines in turn -/

/-- The replies to lines that are run in turn. -/
def replies (files : FileTree) : List String → Session → List Reply
  | [], _ => []
  | line :: lines, s =>
    runLine files line s :: replies files lines (runLine files line s).session

/-- The session behind lines that are run in turn. -/
def sessionBehind (files : FileTree) (lines : List String) (s : Session) : Session :=
  lines.foldl (fun s line => (runLine files line s).session) s

/-- **Lines in turn.** Lines whose statements all succeed go on without an error. They leave and write
what their statements do, one line after another. -/
theorem replies_of_programLines {lines : List String} {tss : List (List Tree)}
    (hlines : List.Forall₂ IsProgramLine lines tss) (files : FileTree) {s : Session} {store : Store}
    {vs : List Value} (h : Tree.evalAll tss.flatten s.store = (.ok vs, store)) :
    (∀ r ∈ replies files lines s, r.status = .goOn ∧ r.err = "") ∧
      concat ((replies files lines s).map Reply.out) = printout tss.flatten vs ∧
      sessionBehind files lines s = s.recordAll store vs := by
  induction hlines generalizing s vs with
  | nil =>
    cases h
    refine ⟨List.forall_mem_nil _, rfl, ?_⟩
    unfold Session.recordAll
    rw [List.append_nil]
    rfl
  | @cons line ts lines tss hline _ ih =>
    obtain ⟨us, s₁, ws, hus, hws, rfl⟩ := Tree.exists_of_evalAll_append_ok h
    have hreply : runLine files line s = ⟨s.recordAll s₁ us, printout ts us, "", .goOn⟩ := by
      rw [hline.runLine_eq, runTrees_of_evalAll hus]
    obtain ⟨hquiet, hout, hsession⟩ := ih (s := s.recordAll s₁ us) hws
    rw [replies, hreply]
    refine ⟨?_, ?_, ?_⟩
    · rw [List.forall_mem_cons]
      exact ⟨⟨rfl, rfl⟩, hquiet⟩
    · rw [List.flatten_cons, printout_append (Tree.length_of_evalAll hus), ← hout]
      rfl
    · unfold sessionBehind at hsession ⊢
      rw [List.foldl_cons, hreply, hsession, Session.recordAll_append]

/-- **Line by line and in one go.** Every line of a program is a program, trimmed or not, and none is
taken for a command; their statements are those of the text. If these all succeed, the lines go on
without an error, leave the store and the results of evaluating the text, and write the renderings of
its print statements in order. -/
theorem lines_simulate_evalText (files : FileTree) (s : Session) {text : String} {ts : List Tree}
    (hparse : parseProgram text = .ok ts) :
    (∃ tss, List.Forall₂ IsProgramLine (splitLines text) tss ∧ tss.flatten = ts) ∧
    ∀ vs store, Tree.evalAll ts s.store = (.ok vs, store) →
      (∀ r ∈ replies files (splitLines text) s, r.status = .goOn ∧ r.err = "") ∧
      (sessionBehind files (splitLines text) s).store = (s.evalText text).2.store ∧
      (sessionBehind files (splitLines text) s).results = (s.evalText text).2.results ∧
      concat ((replies files (splitLines text) s).map Reply.out) = printout ts vs := by
  obtain ⟨tss, hlines, rfl⟩ := exists_programLines hparse
  refine ⟨⟨tss, hlines, rfl⟩, fun vs store heval => ?_⟩
  obtain ⟨hquiet, hout, hsession⟩ := replies_of_programLines hlines files heval
  have hwhole := Session.session_evalText s hparse
  rw [Session.merge_eq, Session.runAll_of_evalAll heval] at hwhole
  rw [hsession, hwhole]
  refine ⟨hquiet, ?_, ?_, hout⟩
  · split <;> rfl
  · split <;> rfl

/-- Names like those of commands, blanks of both kinds at the ends of lines, a comment and a blank
line. -/
theorem lines_simulate_evalText_names :
    let text := "i = x # one\u00a0\n\n\t i; inspect = -i;\x0c\n# two\u3000\ninspect"
    let ts : List Tree := [.assign "i" (.variable "x"), .print (.variable "i"),
      .assign "inspect" (.signed "-" (.variable "i")), .print (.variable "inspect")]
    let v := Value.scalar 2
    let w := Value.scalar (-2)
    let vs := [v, .text v.render, w, .text w.render]
    let store := Store.empty.assign "x" v
    let s := Session.ofStore store
    parseProgram text = .ok ts ∧
      (∃ tss, List.Forall₂ IsProgramLine (splitLines text) tss ∧ tss.flatten = ts) ∧
      Tree.evalAll ts s.store = (.ok vs, (store.assign "i" v).assign "inspect" w) ∧
      (∀ r ∈ replies .empty (splitLines text) s, r.status = .goOn ∧ r.err = "") ∧
      (sessionBehind .empty (splitLines text) s).store = (s.evalText text).2.store ∧
      (sessionBehind .empty (splitLines text) s).results = (s.evalText text).2.results ∧
      concat ((replies .empty (splitLines text) s).map Reply.out) = printout ts vs := by
  intro text ts v w vs store s
  have hparse : parseProgram text = .ok ts := by
    unfold text ts
    with_unfolding_all rfl
  have heval : Tree.evalAll ts s.store = (.ok vs, (store.assign "i" v).assign "inspect" w) := rfl
  obtain ⟨hlines, hruns⟩ := lines_simulate_evalText .empty s hparse
  exact ⟨hparse, hlines, heval, hruns vs _ heval⟩

end Shell

end MatrixCalc
