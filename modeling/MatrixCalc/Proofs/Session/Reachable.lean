import MatrixCalc.Proofs.Eval.Proper
import MatrixCalc.Proofs.Source.Exact
import MatrixCalc.Shell.Line

/-!
# The stores a session can reach

A session that starts without variables is driven by texts, resets and lines of the shell, in any
order and whether they fail or not. Whatever drives it, its store stays proper:

1. a statement keeps a proper store (`run_isProper`), and so do the programs of parsed texts;
2. so does each command of the shell, and by induction on the depth each file that a line runs
   (`runLineWithin_isProper`);
3. hence every input does (`take_isProper`), and every sequence of inputs (`store_of_inputs`).
-/

namespace MatrixCalc

/-! ## Requests -/

namespace Session

/-- The store of the session is proper. -/
def IsProper (s : Session) : Prop := s.store.IsProper

theorem isProper_reset (s : Session) : s.reset.IsProper := Store.isProper_empty

theorem store_run (s : Session) (t : Tree) : (s.run t).2.store = (t.eval s.store).2 := by
  unfold run
  split
  · rename_i heq
    rw [heq]
    rfl
  · rename_i heq
    rw [heq]

theorem session_evalText (s : Session) {text : String} {ts : List Tree}
    (h : parseProgram text = .ok ts) : (s.evalText text).2 = (s.merge ts).2 := by
  unfold evalText
  rw [h]
  dsimp only
  split
  · rename_i heq
    rw [heq]
  · rename_i heq
    rw [heq]

theorem run_isProper {s : Session} {t : Tree} (hs : s.IsProper) (ht : t.IsStatement) :
    (s.run t).2.IsProper := by
  unfold IsProper
  rw [store_run]
  exact Tree.eval_isStatement ht hs

theorem runAll_isProper {s : Session} {ts : List Tree} (hs : s.IsProper)
    (hts : ∀ t ∈ ts, t.IsStatement) : (s.runAll ts).2.IsProper := by
  induction ts generalizing s with
  | nil => exact hs
  | cons t ts ih =>
    have h := run_isProper hs (hts t List.mem_cons_self)
    unfold runAll
    split
    · rename_i v s' heq
      rw [heq] at h
      exact ih h fun u hu => hts u (List.mem_cons_of_mem _ hu)
    · rename_i f s' heq
      rw [heq] at h
      exact h

theorem merge_isProper {s : Session} {ts : List Tree} (hs : s.IsProper)
    (hts : ∀ t ∈ ts, t.IsStatement) : (s.merge ts).2.IsProper := by
  unfold merge
  refine runAll_isProper ?_ hts
  split
  · exact hs
  · exact hs

theorem evalText_isProper {s : Session} (hs : s.IsProper) (text : String) :
    (s.evalText text).2.IsProper := by
  cases h : parseProgram text with
  | error e =>
    unfold evalText
    rw [h]
    exact hs
  | ok ts =>
    rw [session_evalText s h]
    exact merge_isProper hs (isStatement_of_parseProgram h)

theorem valueOf_isProper {s : Session} (hs : s.IsProper) (text : String) :
    (s.valueOf text).2.IsProper := by
  unfold valueOf
  split
  · exact hs
  · rename_i t ht
    exact (Tree.eval_proper t (isStatement_of_parseStatement ht) hs).2
  · rename_i t _ ht
    exact run_isProper hs (isStatement_of_parseStatement ht)

end Session

/-! ## Lines -/

namespace Shell

theorem session_showValue (rendering : Value → String) (s : Session) (text : String) :
    (showValue rendering s text).session = (s.valueOf text).2 := by
  unfold showValue
  split
  · rename_i heq
    rw [heq]
    rfl
  · rename_i heq
    rw [heq]
    rfl

theorem showValue_isProper (rendering : Value → String) {s : Session} (hs : s.IsProper)
    (text : String) : (showValue rendering s text).session.IsProper := by
  rw [session_showValue]
  exact Session.valueOf_isProper hs text

theorem runTrees_isProper {s : Session} {ts : List Tree} (hs : s.IsProper)
    (hts : ∀ t ∈ ts, t.IsStatement) : (runTrees s ts).session.IsProper := by
  induction ts generalizing s with
  | nil => exact hs
  | cons t ts ih =>
    have h := Session.run_isProper hs (hts t List.mem_cons_self)
    unfold runTrees
    split
    · rename_i v s' heq
      rw [heq] at h
      exact ih h fun u hu => hts u (List.mem_cons_of_mem _ hu)
    · rename_i f s' heq
      rw [heq] at h
      exact h

theorem runText_isProper {s : Session} (hs : s.IsProper) (text : String) :
    (runText s text).session.IsProper := by
  unfold runText
  split
  · exact hs
  · rename_i ts hts
    exact runTrees_isProper hs (isStatement_of_parseProgram hts)

theorem runLines_isProper {run : String → Session → Reply}
    (hrun : ∀ line s, s.IsProper → (run line s).session.IsProper) (lines : List String) {s : Session}
    (hs : s.IsProper) : (runLines run lines s).session.IsProper := by
  induction lines generalizing s with
  | nil => exact hs
  | cons line lines ih =>
    have h := hrun line s hs
    unfold runLines
    dsimp only
    split
    · exact h
    · exact ih h

theorem session_endFile (c : Content) (r : Reply) : (endFile c r).session = r.session := by
  unfold endFile
  split
  · rfl
  · rfl

theorem runLineWithin_isProper (files : FileTree) (depth : Nat) (line : String) {s : Session}
    (hs : s.IsProper) : (runLineWithin files depth line s).session.IsProper := by
  -- A file's lines run at a smaller depth, so the induction is on the depth, for every line.
  induction depth using Nat.strong_induction_on generalizing line s with
  | _ depth ih =>
    unfold runLineWithin
    split
    · exact hs
    · exact hs
    · exact hs
    · exact s.isProper_reset
    · split
      · exact hs
      · split
        · exact hs
        · exact hs
        · rename_i content depth _
          rw [session_endFile]
          exact runLines_isProper (fun line _ => ih depth depth.lt_succ_self line) content.lines hs
    · exact showValue_isProper _ hs _
    · exact showValue_isProper _ hs _
    · exact runText_isProper hs _

end Shell

/-! ## Inputs -/

/-- What drives a session: a text to run, a text whose value is asked for, a reset, or a line of the
shell with the files it can see. -/
inductive Input where
  | eval (text : String)
  | valueOf (text : String)
  | reset
  | line (files : FileTree) (line : String)

namespace Session

/-- The session after an input, whether the input fails or not. -/
def take (s : Session) : Input → Session
  | .eval text => (s.evalText text).2
  | .valueOf text => (s.valueOf text).2
  | .reset => s.reset
  | .line files line => (Shell.runLine files line s).session

theorem take_isProper {s : Session} (hs : s.IsProper) (i : Input) : (s.take i).IsProper := by
  cases i with
  | eval text => exact evalText_isProper hs text
  | valueOf text => exact valueOf_isProper hs text
  | reset => exact s.isProper_reset
  | line files line => exact Shell.runLineWithin_isProper files _ line hs

theorem foldl_take_isProper (inputs : List Input) {s : Session} (hs : s.IsProper) :
    (inputs.foldl take s).IsProper := by
  induction inputs generalizing s with
  | nil => exact hs
  | cons i inputs ih => exact ih (take_isProper hs i)

/-- **Reachable stores.** After any inputs to a session that starts without variables, names are
identifiers and distinct, and every value is a scalar, a list with items, or a rectangular matrix
with rows and columns or with neither. -/
theorem store_of_inputs (inputs : List Input) :
    let s := (inputs.foldl take (ofStore .empty)).store
    s.names.Nodup ∧
      ∀ name v, (name, v) ∈ s.bindings → IsIdentifier name ∧ v.IsProper ∧
        ∀ m, v = .matrix m → ∀ row ∈ m.entries, row.length = m.cols := by
  intro s
  have hs : s.IsProper := foldl_take_isProper inputs Store.isProper_empty
  refine ⟨s.distinct, ?_⟩
  intro name v hb
  obtain ⟨hn, hv⟩ := hs (name, v) hb
  exact ⟨hn, hv, fun m _ => m.width⟩

end Session

end MatrixCalc
