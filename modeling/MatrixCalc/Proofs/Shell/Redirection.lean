import MatrixCalc.Proofs.Shell.Inclusion
import MatrixCalc.Proofs.Shell.Turns
import Mathlib.Data.List.Forall2

/-!
# Where results go

A console that reads entries does with them what their turns say (`run_routes`), if nothing that the
entries come to read is disturbed by the files that they open.

1. `Follows`: a console stands where the turns of the entries read so far have left it. What it holds
   back for its sink is what was routed there, and at all other places stands what the turns left.
2. An interrupt, a line of the shell, and the three kinds of redirection keep this
   (`Follows.interrupt`, `Follows.line`, `Follows.restore`, `Follows.redirect`). The files that were
   opened do not change what a line replies, since it comes to read other ones.
3. Hence one entry keeps it (`step_follows`), and a whole run does (`run_follows`).
-/

namespace MatrixCalc

open Text

namespace Console

/-! ## Runs and what they should do -/

/-- All that entries come to read can be run, and no entry disturbs it: no path holds the null
character, the files that are read are texts and do not come to include themselves, and no path that
is read leads to a place at which an entry opens a file, or breaks off there. -/
structure Undisturbed (files : FileTree) (entries : List (Option String)) : Prop where
  orderly : ∀ line ∈ entries.filterMap command?, files.Orderly line
  noNull : ∀ path ∈ entries.filterMap target?, Shell.holdsNull path = false
  apart : ∀ line ∈ entries.filterMap command?, ∀ path p, files.Reads line path →
    files.restsOn? path = some p → p ∉ entries.filterMap (opens? files)

/-- A run from the start does with the entries what their turns say. -/
structure Routes (files : FileTree) (s : Session) (entries : List (Option String)) : Prop where
  /-- Nothing ends the run before its time. -/
  crash : ((start s files).run entries).crash = none
  /-- The entries that are not read are those behind the ones that should be. -/
  unread : (readEntries entries).length + ((start s files).run entries).unread = entries.length
  /-- The session is the one that the shell alone leaves. -/
  session : ((start s files).run entries).console.session =
    sessionBehind files s (readEntries entries)
  /-- The errors are those that the shell reports, and those of files that cannot be opened. -/
  err : ∃ texts, List.Forall₂ (Turn.Complains files) (turns files s (readEntries entries)) texts ∧
    ((start s files).run entries).console.err = concat texts
  /-- The standard output holds the results that go to no file, each behind its prompt. -/
  out : ((start s files).run entries).console.out =
    banner ++ concat ((turns files s (readEntries entries)).map Turn.shown) ++
      (if entries.any asksToQuit then "" else prompt ++ "\n")
  /-- A file that was opened holds what was routed to it since, and all else stands as before. -/
  files : ∀ p, ((start s files).run entries).console.files.find? p =
    standing files (turns files s (readEntries entries)) p

variable {files : FileTree} {s : Session}

/-! ## The parts of a console -/

section

variable (c : Console) (text : String)

@[simp] theorem session_print : (c.print text).session = c.session := rfl

@[simp] theorem files_print : (c.print text).files = c.files := rfl

@[simp] theorem sink_print : (c.print text).sink = c.sink := rfl

@[simp] theorem out_print : (c.print text).out = c.out ++ text := rfl

@[simp] theorem err_print : (c.print text).err = c.err := rfl

theorem print_print (text' : String) : (c.print text).print text' = c.print (text ++ text') := by
  unfold print
  rw [String.append_assoc]

theorem print_empty : c.print "" = c := by
  unfold print
  rw [String.append_empty]

@[simp] theorem session_write : (c.write text).session = c.session := by
  unfold write
  split <;> rfl

@[simp] theorem files_write : (c.write text).files = c.files := by
  unfold write
  split <;> rfl

@[simp] theorem err_write : (c.write text).err = c.err := by
  unfold write
  split <;> rfl

@[simp] theorem out_write :
    (c.write text).out = c.out ++ if c.sink.isNone then text else "" := by
  unfold write
  split
  · rename_i h
    simp [h]
  · rename_i h
    simp [h]

@[simp] theorem sink_write :
    (c.write text).sink = c.sink.map fun k => { k with held := k.held ++ text } := by
  unfold write
  split
  · rename_i h
    simp [h]
  · rename_i h
    simp [h]

@[simp] theorem session_closeSink : c.closeSink.session = c.session := by
  unfold closeSink
  split <;> rfl

@[simp] theorem out_closeSink : c.closeSink.out = c.out := by
  unfold closeSink
  split <;> rfl

@[simp] theorem err_closeSink : c.closeSink.err = c.err := by
  unfold closeSink
  split <;> rfl

@[simp] theorem sink_closeSink : c.closeSink.sink = none := by
  unfold closeSink
  split
  · assumption
  · rfl

theorem files_closeSink_print : (c.print text).closeSink.files = c.closeSink.files := by
  unfold closeSink
  rw [sink_print]
  split <;> rfl

end

/-! ## The invariant -/

/-- The console stands where the turns of the entries have left it. -/
structure Follows (files : FileTree) (s : Session) (entries : List (Option String)) (c : Console) :
    Prop where
  session : c.session = sessionBehind files s entries
  out : c.out = banner ++ concat ((turns files s entries).map Turn.shown)
  err : ∃ texts, List.Forall₂ (Turn.Complains files) (turns files s entries) texts ∧
    c.err = concat texts
  sink : c.sink =
    (destination files entries).map fun p => ⟨p, routedTo files p (turns files s entries)⟩
  rest : ∀ p, destination files entries ≠ some p →
    c.files.find? p = standing files (turns files s entries) p
  grown : files.Grown (entries.filterMap (opens? files)) c.files

theorem start_follows (files : FileTree) (s : Session) : Follows files s [] (start s files) where
  session := rfl
  out := String.append_empty.symm
  err := ⟨[], .nil, rfl⟩
  sink := rfl
  rest := fun _ _ => rfl
  grown := .refl files

namespace Follows

variable {entries : List (Option String)} {c c' : Console} {e : Option String}

theorem out_append (h : Follows files s entries c)
    (hout : c'.out = c.out ++ (turn files s entries e).shown) :
    c'.out = banner ++ concat ((turns files s (entries ++ [e])).map Turn.shown) := by
  rw [hout, h.out, turns_append, List.map_append, concat_append, List.map_singleton,
    concat_singleton, String.append_assoc]

theorem err_append (h : Follows files s entries c) (text : String)
    (htext : (turn files s entries e).Complains files text) (herr : c'.err = c.err ++ text) :
    ∃ texts, List.Forall₂ (Turn.Complains files) (turns files s (entries ++ [e])) texts ∧
      c'.err = concat texts := by
  obtain ⟨texts, hall, hc⟩ := h.err
  refine ⟨texts ++ [text], ?_, ?_⟩
  · rw [turns_append]
    exact List.rel_append hall (.cons htext .nil)
  · rw [herr, hc, concat_append, concat_singleton]

/-- Closing the sink leaves at every place what the turns have left there. -/
theorem find?_closeSink (h : Follows files s entries c) (p : Place) :
    c.closeSink.files.find? p = standing files (turns files s entries) p := by
  have hsink := h.sink
  unfold closeSink
  cases hd : destination files entries with
  | none =>
    rw [hd] at hsink
    rw [hsink]
    exact h.rest p (by simp [hd])
  | some q =>
    rw [hd] at hsink
    rw [hsink]
    have hq := mem_of_destination hd
    obtain ⟨content, hcontent⟩ := h.grown.filled q hq
    dsimp only [Option.map_some]
    rw [FileTree.find?_write (by simp [hcontent])]
    split
    · rename_i hp
      subst hp
      unfold standing
      rw [filterMap_turns, if_pos hq]
    · rename_i hp
      exact h.rest p (by simpa [hd] using Ne.symm hp)

theorem grown_closeSink (h : Follows files s entries c) :
    files.Grown (entries.filterMap (opens? files)) c.closeSink.files := by
  have hsink := h.sink
  unfold closeSink
  cases hd : destination files entries with
  | none =>
    rw [hd] at hsink
    rw [hsink]
    exact h.grown
  | some q =>
    rw [hd] at hsink
    rw [hsink]
    exact h.grown.rewrite (mem_of_destination hd) _

/-- An entry that redirects nothing: what it writes to the destination is routed there. -/
theorem append_of_no_target (h : Follows files s entries c) (ht : target? e = none)
    (hsession : c'.session = (turn files s entries e).reply.session)
    (hout : c'.out = c.out ++ (turn files s entries e).shown)
    (herr : c'.err = c.err ++ (turn files s entries e).reply.err)
    (hsink : c'.sink = c.sink.map fun k =>
      { k with held := k.held ++ (turn files s entries e).reply.out })
    (hfiles : c'.files = c.files) : Follows files s (entries ++ [e]) c' := by
  have hopens : opens? files e = none := by
    unfold opens?
    rw [ht]
    rfl
  have hdest : destination files (entries ++ [e]) = destination files entries := by
    rw [destination_append, ht]
  refine ⟨?_, h.out_append hout, h.err_append _ ?_ herr, ?_, ?_, ?_⟩
  · rw [hsession, sessionBehind_append]
    rfl
  · exact (complains_of_no_target ht _).mpr rfl
  · rw [hsink, h.sink, hdest, turns_append]
    cases hd : destination files entries with
    | none => rfl
    | some p => simp [routedTo_append, hopens, hd]
  · intro p hp
    rw [hdest] at hp
    rw [hfiles, standing_append, if_neg (by simp [hopens]), if_neg hp]
    exact h.rest p hp
  · rw [hfiles, List.filterMap_append, List.filterMap_cons_none hopens]
    simpa using h.grown

/-- An entry that redirects results: the file they went to is closed, and the place they go to from
now on, if there is one, holds an empty file. -/
theorem append_of_target {path : String} (h : Follows files s entries c)
    (ht : target? e = some path) (hsession : c'.session = c.session)
    (hout : c'.out = c.out ++ prompt) (text : String)
    (htext : (turn files s entries e).Complains files text) (herr : c'.err = c.err ++ text)
    (hsink : c'.sink = (placeFor? files path).map fun p => ⟨p, ""⟩)
    (hfind : ∀ p, placeFor? files path ≠ some p → c'.files.find? p = c.closeSink.files.find? p)
    (hgrown : files.Grown (entries.filterMap (opens? files) ++ (placeFor? files path).toList)
      c'.files) : Follows files s (entries ++ [e]) c' := by
  have hopens : opens? files e = placeFor? files path := by
    unfold opens?
    rw [ht]
    rfl
  have hdest : destination files (entries ++ [e]) = placeFor? files path := by
    rw [destination_append, ht]
  have hreply : replyTo files (sessionBehind files s entries) e =
      .silent (sessionBehind files s entries) := replyTo_of_target ht _
  refine ⟨?_, h.out_append ?_, h.err_append text htext herr, ?_, ?_, ?_⟩
  · rw [hsession, sessionBehind_append, hreply]
    exact h.session
  · obtain ⟨line, rfl, -⟩ := Option.bind_eq_some_iff.mp ht
    rw [hout]
    simp [Turn.shown, hreply, Reply.silent]
  · rw [hsink, hdest, turns_append]
    cases hp : placeFor? files path with
    | none => rfl
    | some p => simp [routedTo_append, hopens, hp]
  · intro p hp
    rw [hdest] at hp
    rw [hfind p hp, h.find?_closeSink, standing_append_of_quiet (hopens ▸ hp) (by rw [hreply]; rfl)]
  · rw [List.filterMap_append]
    rw [← hopens] at hgrown
    cases ho : opens? files e <;> simpa [ho] using hgrown

theorem interrupt (h : Follows files s entries c) :
    Follows files s (entries ++ [none]) ((c.print prompt).print "\n") :=
  h.append_of_no_target rfl h.session
    (by simp [Turn.shown, replyTo, command?, Reply.silent, String.append_assoc])
    String.append_empty.symm
    (by simp [replyTo, command?, Reply.silent])
    rfl

/-- A line of the shell that replies as it would if nothing had been redirected. -/
theorem line {line : String} (h : Follows files s entries c) (hline : redirection? line = none)
    (hsame : Shell.runLine c.files line c.session =
      Shell.runLine files line (sessionBehind files s entries)) :
    Follows files s (entries ++ [some line]) ((c.print prompt).runLine line).1 := by
  have hreply : (turn files s entries (some line)).reply =
      Shell.runLine files line (sessionBehind files s entries) := by
    rw [reply_turn, replyTo_of_line hline]
  have ht : target? (some line) = none := hline
  unfold runLine
  dsimp only [session_print, files_print]
  rw [hsame, ← hreply]
  refine h.append_of_no_target ht (by simp) ?_ (by simp) (by simp) (by simp)
  -- The console has a sink exactly if the turn has a destination.
  simp [h.sink, Turn.shown, String.append_assoc]

/-- A line that sends results back to the standard output. -/
theorem restore {line : String} (h : Follows files s entries c)
    (hline : redirection? line = some "") :
    Follows files s (entries ++ [some line]) (c.print prompt).closeSink := by
  have hfor : placeFor? files "" = none := if_pos rfl
  have ht : target? (some line) = some "" := hline
  refine h.append_of_target ht (by simp) (by simp) "" ?_ (by simp) ?_ ?_ ?_
  · exact (complains_of_target ht (by simp) "").mpr rfl
  · rw [hfor, sink_closeSink]
    rfl
  · intro p _
    rw [files_closeSink_print]
  · rw [hfor, files_closeSink_print, Option.toList_none, List.append_nil]
    exact h.grown_closeSink

/-- A line that redirects results to a path: the file is opened, or the reason is reported why it
cannot be. -/
theorem redirect {line path : String} (h : Follows files s entries c)
    (hline : redirection? line = some path) (hpath : path ≠ "") :
    Follows files s (entries ++ [some line]) ((c.print prompt).closeSink.openSink path) := by
  have ht : target? (some line) = some path := hline
  have hfor : placeFor? files path = (c.closeSink.files.placeToWrite path).toOption := by
    unfold placeFor?
    rw [if_neg hpath, h.grown_closeSink.placeToWrite]
  unfold openSink
  rw [files_closeSink_print]
  cases hw : c.closeSink.files.placeToWrite path with
  | ok p =>
    rw [hw] at hfor
    have hp := FileTree.find?_of_placeToWrite hw
    refine h.append_of_target ht (by simp) (by simp) "" ?_ (by simp) ?_ ?_ ?_
    · exact (complains_of_target ht (by simp [hfor, Except.toOption]) "").mpr rfl
    · rw [hfor]
      rfl
    · intro q hq
      have hne : q ≠ p := by
        rintro rfl
        exact hq hfor
      dsimp only
      rw [FileTree.find?_write hp, if_neg hne]
    · rw [hfor]
      exact h.grown_closeSink.write hp ""
  | error f =>
    rw [hw] at hfor
    refine h.append_of_target ht (by simp) (by simp)
      ("Error opening '" ++ path ++ "': " ++ f.message path ++ "\n") ?_ ?_ ?_ ?_ ?_
    · exact complains_of_refused ht hpath hfor f
    · simp [String.append_assoc]
    · rw [hfor, sink_closeSink]
      rfl
    · exact fun _ _ => rfl
    · rw [hfor]
      simpa [Except.toOption] using h.grown_closeSink

end Follows

/-! ## Runs -/

/-- Takes an entry at the prompt. -/
def step (c : Console) : Option String → Console × Status
  | none => ((c.print prompt).print "\n", .goOn)
  | some line => (c.print prompt).take line

theorem run_cons (c : Console) (e : Option String) (entries : List (Option String)) :
    c.run (e :: entries) =
      match c.step e with
      | (c, .goOn) => c.run entries
      | (c, .quit) => ⟨c.closeSink, entries.length, none⟩
      | (c, .crash crash) => ⟨c.closeSink, entries.length, some crash⟩ := by
  cases e <;> rfl

/-- A line of an undisturbed run replies as if nothing had been redirected. -/
theorem runLine_of_undisturbed {before behind : List (Option String)} {line : String} {c : Console}
    (h : Undisturbed files (before ++ some line :: behind)) (hc : Follows files s before c)
    (hline : redirection? line = none) :
    Shell.runLine c.files line c.session =
        Shell.runLine files line (sessionBehind files s before) ∧
      (Shell.runLine files line (sessionBehind files s before)).status =
        if Command.ofLine line = .quit then .quit else .goOn := by
  rw [hc.session]
  by_cases hb : strip line = ""
  · rw [runLine_of_blank hb, runLine_of_blank hb, ofLine_of_blank hb]
    exact ⟨rfl, rfl⟩
  · have hmem : line ∈ (before ++ some line :: behind).filterMap command? := by
      refine List.mem_filterMap.mpr ⟨some line, by simp, ?_⟩
      unfold command?
      dsimp only
      rw [if_neg (by simp [hb, hline])]
    have ho := h.orderly line hmem
    refine ⟨Shell.runLine_of_grown hc.grown ho ?_ _, Shell.status_runLineWithin ho _ _⟩
    intro path p hreads hrest hp
    refine h.apart line hmem path p hreads hrest ?_
    rw [List.filterMap_append]
    exact List.mem_append_left _ hp

/-- One entry of an undisturbed run: the session ends if the entry asks for it, and the console
follows. -/
theorem step_follows {before behind : List (Option String)} {e : Option String} {c : Console}
    (h : Undisturbed files (before ++ e :: behind)) (hc : Follows files s before c) :
    (c.step e).2 = (if asksToQuit e then .quit else .goOn) ∧
      Follows files s (before ++ [e]) (c.step e).1 := by
  cases e with
  | none => exact ⟨rfl, hc.interrupt⟩
  | some line =>
    unfold step take
    dsimp only
    cases hline : redirection? line with
    | none =>
      obtain ⟨hsame, hstatus⟩ := runLine_of_undisturbed h hc hline
      refine ⟨?_, hc.line hline hsame⟩
      unfold runLine
      dsimp only [session_print, files_print]
      rw [hsame, hstatus]
      simp only [← asksToQuit_iff]
    | some path =>
      have hquit : asksToQuit (some line) = false := by
        rw [Bool.eq_false_iff]
        intro hq
        rw [redirection?_of_asksToQuit hq] at hline
        cases hline
      have hnull : Shell.holdsNull path = false :=
        h.noNull path (List.mem_filterMap.mpr ⟨some line, by simp, hline⟩)
      rw [hquit, if_neg Bool.false_ne_true]
      dsimp only
      unfold Console.redirect
      by_cases hpath : path = ""
      · subst hpath
        exact ⟨rfl, hc.restore hline⟩
      · rw [if_neg hpath, hnull]
        exact ⟨rfl, hc.redirect hline hpath⟩

/-- A whole undisturbed run follows the entries that it reads, up to the farewell at the end. -/
theorem run_follows {before entries : List (Option String)} {c : Console}
    (h : Undisturbed files (before ++ readEntries entries)) (hc : Follows files s before c) :
    ∃ c' unread, Follows files s (before ++ readEntries entries) c' ∧
      (readEntries entries).length + unread = entries.length ∧
      c.run entries =
        ⟨(c'.print (if entries.any asksToQuit then "" else prompt ++ "\n")).closeSink, unread,
          none⟩ := by
  -- The entries read so far grow as those to come get fewer; together they are those that are read.
  induction entries generalizing before c with
  | nil =>
    refine ⟨c, 0, ?_, rfl, ?_⟩
    · rw [readEntries, List.append_nil]
      exact hc
    · rw [run, print_print]
      rfl
  | cons e entries ih =>
    rw [run_cons]
    unfold readEntries at h ⊢
    by_cases hq : asksToQuit e = true
    · rw [if_pos hq] at h ⊢
      obtain ⟨hstatus, hstep⟩ := step_follows h hc
      refine ⟨(c.step e).1, entries.length, hstep, Nat.add_comm .., ?_⟩
      rw [← Prod.mk.eta (p := c.step e), hstatus, if_pos hq, List.any_cons, hq, Bool.true_or,
        if_pos rfl, print_empty]
    · rw [if_neg hq] at h ⊢
      obtain ⟨hstatus, hstep⟩ := step_follows h hc
      rw [if_neg hq] at hstatus
      rw [List.append_cons] at h ⊢
      obtain ⟨c', unread, hc', hunread, hrun⟩ := ih h hstep
      refine ⟨c', unread, hc', ?_, ?_⟩
      · rw [List.length_cons, List.length_cons]
        omega
      · rw [← Prod.mk.eta (p := c.step e), hstatus]
        dsimp only
        rw [hrun, List.any_cons, Bool.eq_false_of_not_eq_true hq, Bool.false_or]

/-- **Redirection routes results and changes nothing else.** If nothing that the entries come to read
is disturbed, a run reads them up to the first that asks to quit, leaves the session and reports the
errors of the shell alone, and sends the results of each line whole to one place: the file that the
latest redirection opened, or the standard output. A file that was opened holds in the end what was
sent to it since it was last opened. -/
theorem run_routes (files : FileTree) (s : Session) (entries : List (Option String))
    (h : Undisturbed files (readEntries entries)) : Routes files s entries := by
  obtain ⟨c, unread, hc, hunread, hrun⟩ := run_follows h (start_follows files s)
  rw [List.nil_append] at hc
  constructor
  · rw [hrun]
  · rw [hrun]
    exact hunread
  · rw [hrun, session_closeSink, session_print]
    exact hc.session
  · rw [hrun, err_closeSink, err_print]
    exact hc.err
  · rw [hrun, out_closeSink, out_print, hc.out]
  · intro p
    rw [hrun, files_closeSink_print]
    exact hc.find?_closeSink p

example : ((start (.ofStore .empty) .empty).run
    [some "?>> out", some ":vars", some "?>> out", some ":vars", some ":vars"]).console.files.find?
      ["out"] = some (.file (.text "  (no variables defined)\n  (no variables defined)\n")) := by
  decide +kernel

theorem run_routes_included :
    let files := FileTree.empty.addFile "f" (.text ":vars")
    let entries := [some "?>> out", none, some "?<< f", some " ", some "?>> no/out", some "?<< f",
      some ":q", some "?>>"]
    Undisturbed files (readEntries entries) ∧ Routes files (.ofStore .empty) entries := by
  intro files entries
  have hcommands : (readEntries entries).filterMap command? = ["?<< f", "?<< f", ":q"] := by
    decide +kernel
  have hline : Command.ofLine "?<< f" = .runFile "f" := by decide +kernel
  have hquit : ∀ path, Command.ofLine ":q" ≠ .runFile path := by
    rw [show Command.ofLine ":q" = .quit by decide +kernel]
    simp
  have hread : ∀ c, files.read "f" = .ok c → c = .text ":vars" := by
    intro c hc
    have hf : (files.read "f").toOption = some (.text ":vars") := by decide +kernel
    rw [hc] at hf
    exact Option.some.inj hf
  have hleaf : ∀ c, files.read "f" = .ok c → ∀ inner ∈ c.lines, ∀ next,
      Command.ofLine inner ≠ .runFile next := by
    intro c hc inner hinner next
    rw [hread c hc, show (Content.text ":vars").lines = [":vars"] by decide +kernel,
      List.mem_singleton] at hinner
    rw [hinner, show Command.ofLine ":vars" = .variables by decide +kernel]
    simp
  have hrun : files.Orderly "?<< f" :=
    FileTree.orderly_of_leaf hline (by decide +kernel) (fun c hc => ⟨_, hread c hc⟩) hleaf
  have h : Undisturbed files (readEntries entries) := by
    refine ⟨?_, by decide +kernel, ?_⟩
    · rw [hcommands]
      simp [hrun, FileTree.orderly_of_ne hquit]
    · rw [hcommands]
      intro line hmem path p hreads hrest
      obtain rfl | rfl : line = "?<< f" ∨ line = ":q" := by simpa using hmem
      · obtain rfl := FileTree.eq_of_reads hline hleaf hreads
        rw [show files.restsOn? "f" = some ["f"] by decide +kernel] at hrest
        obtain rfl := Option.some.inj hrest
        decide +kernel
      · exact absurd hreads (FileTree.not_reads hquit path)
  exact ⟨h, run_routes files _ entries h⟩

/-- It is not enough that the paths that are read lead to other places than the ones that results go
to: a path that leads through such a place breaks off for another reason once a file stands there. -/
theorem not_routes_through_target :
    let entries := [some "?>> out", some "?<< out/x"]
    (∀ line ∈ (readEntries entries).filterMap command?, FileTree.empty.Orderly line) ∧
      (∀ path ∈ (readEntries entries).filterMap target?, Shell.holdsNull path = false) ∧
      (∀ line ∈ (readEntries entries).filterMap command?, ∀ path, FileTree.empty.Reads line path →
        ∀ target ∈ (readEntries entries).filterMap target?,
          FileTree.placeOf path ≠ FileTree.placeOf target) ∧
      ¬ Routes .empty (.ofStore .empty) entries := by
  intro entries
  have hcommands : (readEntries entries).filterMap command? = ["?<< out/x"] := by decide +kernel
  have hline : Command.ofLine "?<< out/x" = .runFile "out/x" := by decide +kernel
  have hread : ∀ c, FileTree.empty.read "out/x" ≠ .ok c := by
    intro c hc
    have hx : (FileTree.empty.read "out/x").toOption = none := by decide +kernel
    rw [hc] at hx
    cases hx
  have hleaf : ∀ c, FileTree.empty.read "out/x" = .ok c → ∀ inner ∈ c.lines, ∀ next,
      Command.ofLine inner ≠ .runFile next := fun c hc => absurd hc (hread c)
  refine ⟨?_, by decide +kernel, ?_, ?_⟩
  · rw [hcommands]
    have ho := FileTree.orderly_of_leaf hline (by decide +kernel)
      (fun c hc => absurd hc (hread c)) hleaf
    simpa using ho
  · rw [hcommands]
    intro line hmem path hreads
    obtain rfl := List.mem_singleton.mp hmem
    obtain rfl := FileTree.eq_of_reads hline hleaf hreads
    decide +kernel
  · intro h
    obtain ⟨texts, htexts, herr⟩ := h.err
    rw [show readEntries entries = entries by decide +kernel, turns, turnsFrom, turnsFrom,
      turnsFrom] at htexts
    cases htexts with
    | cons hopen htexts =>
      cases htexts with
      | cons hrun htexts =>
        cases htexts
        rw [complains_of_target (show target? (some "?>> out") = some "out" by decide +kernel)
          (by decide +kernel)] at hopen
        rw [complains_of_no_target (by decide +kernel)] at hrun
        rw [hopen, hrun] at herr
        revert herr
        decide +kernel

end Console

end MatrixCalc
