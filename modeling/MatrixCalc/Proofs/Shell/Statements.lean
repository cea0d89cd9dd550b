import MatrixCalc.Proofs.Session.Messages
import MatrixCalc.Proofs.Session.Transcript
import MatrixCalc.Proofs.Shell.Turns

/-!
# Lines of statements

A line that is no command runs its statements one by one and writes what they print in between. It
leaves what running them all in one go leaves, and reports the same error, once
(`runLine_simulates_evalText`).

1. `runTrees_eq`: the reply to statements, in full. The session and the error are those of `runAll`;
   the output follows from the statements and their values (`printout`).
2. `runText_simulates`: so the reply to a text is that of evaluating it, whether it parses and
   succeeds or not. Only a text without statements is taken differently: it forgets the latest value
   when it is evaluated, and does nothing in a line.
3. `Command.IsPlain` says which lines are no commands (`ofTrimmed_of_isPlain`).
-/

namespace MatrixCalc

open Text

namespace Session

theorem merge_eq (s : Session) (ts : List Tree) : s.merge ts = ((s.runAll ts).1,
    if ts.isEmpty then { (s.runAll ts).2 with last := none } else (s.runAll ts).2) := by
  cases ts <;> rfl

theorem result_evalText (s : Session) {text : String} {ts : List Tree}
    (h : parseProgram text = .ok ts) : (s.evalText text).1 =
      ((s.runAll ts).1.mapError .fault).map fun _ => (s.evalText text).2.last := by
  have hmerge : (s.merge ts).1 = (s.runAll ts).1 := by rw [merge_eq]
  rw [← hmerge]
  unfold evalText
  rw [h]
  dsimp only
  split <;> rename_i heq <;> rw [heq] <;> rfl

end Session

namespace Shell

/-- What print statements write, given the values of the statements that succeeded: the rendering of
each on a line of its own. -/
def printout (ts : List Tree) (vs : List Value) : String :=
  concat (((ts.zip vs).filter fun p => p.1.isPrint).map fun p => p.2.render ++ "\n")

theorem printout_cons (t : Tree) (ts : List Tree) (v : Value) (vs : List Value) :
    printout (t :: ts) (v :: vs) = (if t.isPrint then v.render ++ "\n" else "") ++ printout ts vs := by
  unfold printout
  rw [List.zip_cons_cons, List.filter_cons]
  dsimp only
  split
  · rfl
  · exact (String.empty_append ..).symm

/-- What is written to the channel of errors when statements end. -/
def complaint : Except Fault Unit → String
  | .ok _ => ""
  | .error f => "Error: " ++ f.message ++ "\n"

/-- **Step by step and in one go.** Statements that are run one by one leave the session of all of
them, and report the fault at which they end. -/
theorem runTrees_eq (s : Session) (ts : List Tree) :
    runTrees s ts = ⟨(s.runAll ts).2, printout ts (Tree.succeed ts s.store).1,
      complaint (s.runAll ts).1, .goOn⟩ := by
  induction ts generalizing s with
  | nil => rfl
  | cons t ts ih =>
    unfold runTrees Session.runAll Tree.succeed Session.run
    cases t.eval s.store with
    | mk r store =>
      cases r with
      | error f => rfl
      | ok v =>
        dsimp only
        rw [ih, printout_cons]
        unfold Reply.after
        dsimp only
        rw [String.empty_append]
        rfl

/-! ## Texts -/

/-- The reply is that of evaluating the text: the same store and results, the same latest value unless
the text holds no statement, the one error of the text on a single line, and the output of the print
statements before it. -/
structure Simulates (s : Session) (text : String) (r : Reply) : Prop where
  status : r.status = .goOn
  store : r.session.store = (s.evalText text).2.store
  results : r.session.results = (s.evalText text).2.results
  last : parseProgram text ≠ .ok [] → r.session.last = (s.evalText text).2.last
  success : ∀ v, (s.evalText text).1 = .ok v → r.err = ""
  failure : ∀ e, (s.evalText text).1 = .error e →
    r.err = "Error: " ++ e.message ++ "\n" ∧ IsLine e.message ∧ e.IsOfLanguage
  out : ∀ ts, parseProgram text = .ok ts → r.out = printout ts (Tree.succeed ts s.store).1
  silent : ∀ e, parseProgram text = .error e → r.out = ""

/-- Running a text is evaluating it. -/
theorem runText_simulates (s : Session) (text : String) : Simulates s text (runText s text) := by
  have hreported := @Session.error_of_evalText s text
  cases hparse : parseProgram text with
  | error e =>
    have heval : s.evalText text = (.error (.parse e), s) := by
      unfold Session.evalText
      rw [hparse]
    have hrun : runText s text = .refuse s (.parse e) := by
      unfold runText
      rw [hparse]
    rw [heval] at hreported
    rw [hrun]
    exact {
      status := rfl
      store := by rw [heval]; rfl
      results := by rw [heval]; rfl
      last := fun _ => by rw [heval]; rfl
      success := by
        intro v hv
        rw [heval] at hv
        cases hv
      failure := by
        intro e' he'
        rw [heval] at he'
        cases he'
        obtain ⟨hlanguage, hline⟩ := hreported rfl
        exact ⟨rfl, hline, hlanguage⟩
      out := by
        intro ts hts
        rw [hparse] at hts
        cases hts
      silent := fun _ _ => rfl }
  | ok ts =>
    have hrun : runText s text = runTrees s ts := by
      unfold runText
      rw [hparse]
    have hsession := Session.session_evalText s hparse
    rw [Session.merge_eq] at hsession
    have hresult := Session.result_evalText s hparse
    rw [hrun, runTrees_eq]
    exact {
      status := rfl
      store := by rw [hsession]; split <;> rfl
      results := by rw [hsession]; split <;> rfl
      last := by
        intro hne
        rw [hsession]
        cases ts with
        | nil => exact absurd hparse hne
        | cons t ts => rfl
      success := by
        intro v hv
        rw [hresult] at hv
        cases hall : (s.runAll ts).1 with
        | ok _ => rfl
        | error f =>
          rw [hall] at hv
          cases hv
      failure := by
        intro e he
        obtain ⟨hlanguage, hline⟩ := hreported he
        refine ⟨?_, hline, hlanguage⟩
        rw [hresult] at he
        cases hall : (s.runAll ts).1 with
        | ok _ =>
          rw [hall] at he
          cases he
        | error f =>
          rw [hall] at he
          cases he
          rfl
      out := by
        intro ts' hts
        rw [hparse] at hts
        cases hts
        rfl
      silent := by
        intro e he
        rw [hparse] at he
        cases he }

end Shell

/-! ## Plain lines -/

namespace Command

/-- The trimmed line is no command: it is neither blank nor a comment, none of the words that ask for
something, and neither runs a file nor shows a value. -/
structure IsPlain (s : List Char) : Prop where
  ne_nil : s ≠ []
  head : s.head? ≠ some '#'
  word : s ∉ [":q".toList, ":quit".toList, ":vars".toList, ":reset".toList]
  runFile : ¬ "?<< ".toList <+: s
  display : ¬ "? ".toList <+: s
  inspect : ∀ opening ∈ ["inspect(".toList, "i(".toList], ¬ (opening <+: s ∧ [')'] <:+ s)

theorem isPrefixOf?_eq_none {opening s : List Char} (h : ¬ opening <+: s) :
    opening.isPrefixOf? s = none := by
  cases hs : opening.isPrefixOf? s with
  | none => rfl
  | some r => exact absurd ⟨r, List.append_eq_of_isPrefixOf?_eq_some hs⟩ h

theorem enclosed?_eq_none {opening s : List Char} (h : ¬ (opening <+: s ∧ [')'] <:+ s)) :
    enclosed? opening s = none := by
  unfold enclosed?
  split
  · rfl
  · rename_i r hr
    have happ := List.append_eq_of_isPrefixOf?_eq_some hr
    rw [if_neg]
    intro hlast
    obtain ⟨r', rfl⟩ := List.getLast?_eq_some_iff.1 hlast
    exact h ⟨⟨_, happ⟩, ⟨opening ++ r', by rw [List.append_assoc, happ]⟩⟩

/-- A plain line is a program. -/
theorem ofTrimmed_of_isPlain {s : List Char} (h : IsPlain s) :
    ofTrimmed s = .statements (String.ofList s) := by
  have hword := h.word
  simp only [List.mem_cons, List.not_mem_nil, or_false, not_or] at hword
  obtain ⟨hq, hquit, hvars, hreset⟩ := hword
  have hinspect := enclosed?_eq_none (h.inspect _ List.mem_cons_self)
  have hi := enclosed?_eq_none (h.inspect _ (List.mem_cons_of_mem _ List.mem_cons_self))
  unfold ofTrimmed
  rw [if_neg (not_or.2 ⟨h.ne_nil, h.head⟩), if_neg (not_or.2 ⟨hq, hquit⟩), if_neg hvars,
    if_neg hreset, isPrefixOf?_eq_none h.runFile, isPrefixOf?_eq_none h.display, hinspect, hi]
  rfl

end Command

namespace Shell

theorem runLine_of_statements {line text : String} (h : Command.ofLine line = .statements text)
    (files : FileTree) (s : Session) : runLine files line s = runText s text := by
  unfold runLine runLineWithin
  rw [h]

/-- **A line simulates evaluation.** A line that is no command goes on, and leaves the store and the
results of evaluating its trimmed text, and the latest value if the text has a statement. If the text
is refused, the error is reported in one line and nothing else goes wrong; if not, nothing is
reported. The print statements before the failure, and no others, write their renderings. -/
theorem runLine_simulates_evalText (files : FileTree) (s : Session) (line : String)
    (h : Command.IsPlain (stripChars line.toList)) :
    Simulates s (strip line) (runLine files line s) := by
  have hline : Command.ofLine line = .statements (strip line) := Command.ofTrimmed_of_isPlain h
  rw [runLine_of_statements hline]
  exact runText_simulates s (strip line)

/-- A statement that prints, one that fails, and one that is not reached. -/
theorem runLine_simulates_evalText_failing :
    let line := "\u00a0x = 1; x; i; x = 2 "
    Command.IsPlain (stripChars line.toList) ∧
      Simulates (.ofStore .empty) (strip line) (runLine .empty line (.ofStore .empty)) := by
  intro line
  have h : Command.IsPlain (stripChars line.toList) := by
    refine ⟨?_, ?_, ?_, ?_, ?_, ?_⟩ <;> decide +kernel
  exact ⟨h, runLine_simulates_evalText .empty _ line h⟩

end Shell

end MatrixCalc
