import MatrixCalc.Shell.Console
import Mathlib.Data.List.DropRight

/-!
# The turns of a console

A console reads entries and sends the results of each to the standard output or to a file. What it
should do with them follows from the entries alone, without a console:

1. `readEntries`: the entries that are read; `command?`: the line that one of them gives to the
   shell; `opens?`: the place of the file that it opens for results;
2. `sessionBehind`: the session behind entries, if the shell ran their lines one after another and
   nothing were redirected; `destination`: where results go behind them;
3. `turns`: for each entry the destination of its results and what the shell replies;
4. `routedTo`: what turns wrote to a file since it was last opened.

Each of these is then followed through one more entry (`turns_append`, `sessionBehind_append`,
`destination_append`, `routedTo_append`, `standing_append`).
-/

namespace MatrixCalc

open Text

theorem Text.concat_append (xs ys : List String) : concat (xs ++ ys) = concat xs ++ concat ys := by
  induction xs with
  | nil => exact (String.empty_append ..).symm
  | cons x xs ih => rw [List.cons_append, concat, concat, ih, String.append_assoc]

theorem Text.concat_singleton (x : String) : concat [x] = x := String.append_empty

namespace Console

/-! ## Entries -/

/-- The entry asks to quit. -/
def asksToQuit : Option String → Bool
  | none => false
  | some line => strip line == ":q" || strip line == ":quit"

/-- The entries that are read: those up to the first that asks to quit, and that one too. -/
def readEntries : List (Option String) → List (Option String)
  | [] => []
  | e :: entries => if asksToQuit e then [e] else e :: readEntries entries

/-- The path that an entry redirects results to, empty if they go back to the standard output. -/
def target? (e : Option String) : Option String := e.bind redirection?

/-- The line that an entry gives to the shell. Interrupts, blank lines and redirections give none. -/
def command? : Option String → Option String
  | none => none
  | some line => if strip line = "" ∨ (redirection? line).isSome then none else some line

/-- The place at which a path is opened for results, if it names a file that can be opened. The files
that a run makes do not change this. -/
def placeFor? (files : FileTree) (path : String) : Option Place :=
  if path = "" then none else (files.placeToWrite path).toOption

/-- The place of the file that an entry opens. -/
def opens? (files : FileTree) (e : Option String) : Option Place :=
  (target? e).bind (placeFor? files)

/-- Where results go behind entries: into the file that the latest redirection opened, if it opened
one, and else to the standard output. -/
def destination (files : FileTree) (entries : List (Option String)) : Option Place :=
  (entries.filterMap target?).getLast?.bind (placeFor? files)

/-- The session behind entries, as the shell alone would leave it. -/
def sessionBehind (files : FileTree) (s : Session) (entries : List (Option String)) : Session :=
  (entries.filterMap command?).foldl (fun s line => (Shell.runLine files line s).session) s

/-- What the shell replies to an entry. -/
def replyTo (files : FileTree) (s : Session) (e : Option String) : Reply :=
  match command? e with
  | some line => Shell.runLine files line s
  | none => .silent s

/-! ## Turns -/

/-- An entry that was read, where results went, and what the shell replied. -/
structure Turn where
  entry : Option String
  destination : Option Place
  reply : Reply

/-- The turn of an entry behind others. -/
def turn (files : FileTree) (s : Session) (before : List (Option String)) (e : Option String) :
    Turn :=
  ⟨e, destination files before, replyTo files (sessionBehind files s before) e⟩

/-- The turns of entries behind others. -/
def turnsFrom (files : FileTree) (s : Session) :
    (before entries : List (Option String)) → List Turn
  | _, [] => []
  | before, e :: entries =>
    turn files s before e :: turnsFrom files s (before ++ [e]) entries

/-- The turns of entries. -/
def turns (files : FileTree) (s : Session) (entries : List (Option String)) : List Turn :=
  turnsFrom files s [] entries

/-- What a turn shows on the standard output: the prompt, a line end behind an interrupt, and the
results that go to no file. -/
def Turn.shown (t : Turn) : String :=
  prompt ++ (if t.entry.isNone then "\n" else "") ++
    (if t.destination.isNone then t.reply.out else "")

/-- The text is what a turn writes to the channel of errors: what the shell reports, or why a file
could not be opened. -/
def Turn.Complains (files : FileTree) (t : Turn) (text : String) : Prop :=
  match target? t.entry with
  | none => text = t.reply.err
  | some path =>
    if path ≠ "" ∧ placeFor? files path = none then
      ∃ f : FileFault, text = "Error opening '" ++ path ++ "': " ++ f.message path ++ "\n"
    else text = ""

/-- What turns wrote to the file at a place since it was last opened. -/
def routedTo (files : FileTree) (p : Place) (ts : List Turn) : String :=
  concat (((ts.rtakeWhile fun t => opens? files t.entry ≠ some p).filter
    fun t => t.destination = some p).map fun t => t.reply.out)

/-- What stands at a place behind turns: what was routed to it, if a turn has opened it. -/
def standing (files : FileTree) (ts : List Turn) (p : Place) : Option Entry :=
  if p ∈ ts.filterMap fun t => opens? files t.entry then some (.file (.text (routedTo files p ts)))
  else files.find? p

/-! ## One more turn -/

variable {files : FileTree} {s : Session}

section

variable (entries : List (Option String)) (e : Option String)

@[simp] theorem entry_turn : (turn files s entries e).entry = e := rfl

@[simp] theorem destination_turn :
    (turn files s entries e).destination = destination files entries := rfl

@[simp] theorem reply_turn :
    (turn files s entries e).reply = replyTo files (sessionBehind files s entries) e := rfl

end

theorem complains_of_no_target {entries : List (Option String)} {e : Option String}
    (h : target? e = none) (text : String) :
    (turn files s entries e).Complains files text ↔ text = (turn files s entries e).reply.err := by
  unfold Turn.Complains
  rw [entry_turn, h]

theorem complains_of_target {entries : List (Option String)} {e : Option String} {path : String}
    (h : target? e = some path) (hpath : ¬ (path ≠ "" ∧ placeFor? files path = none))
    (text : String) : (turn files s entries e).Complains files text ↔ text = "" := by
  unfold Turn.Complains
  rw [entry_turn, h]
  dsimp only
  rw [if_neg hpath]

theorem complains_of_refused {entries : List (Option String)} {e : Option String} {path : String}
    (h : target? e = some path) (hpath : path ≠ "") (hplace : placeFor? files path = none)
    (f : FileFault) :
    (turn files s entries e).Complains files
      ("Error opening '" ++ path ++ "': " ++ f.message path ++ "\n") := by
  unfold Turn.Complains
  rw [entry_turn, h]
  dsimp only
  rw [if_pos ⟨hpath, hplace⟩]
  exact ⟨f, rfl⟩

theorem turnsFrom_append (before entries : List (Option String)) (e : Option String) :
    turnsFrom files s before (entries ++ [e]) =
      turnsFrom files s before entries ++ [turn files s (before ++ entries) e] := by
  induction entries generalizing before with
  | nil =>
    rw [List.append_nil]
    rfl
  | cons d entries ih =>
    rw [List.cons_append, turnsFrom, turnsFrom, ih, List.append_assoc]
    rfl

theorem turns_append (entries : List (Option String)) (e : Option String) :
    turns files s (entries ++ [e]) = turns files s entries ++ [turn files s entries e] :=
  turnsFrom_append [] entries e

theorem map_entry_turnsFrom (before entries : List (Option String)) :
    (turnsFrom files s before entries).map Turn.entry = entries := by
  induction entries generalizing before with
  | nil => rfl
  | cons e entries ih => rw [turnsFrom, List.map_cons, ih]; rfl

theorem sessionBehind_append (entries : List (Option String)) (e : Option String) :
    sessionBehind files s (entries ++ [e]) =
      (replyTo files (sessionBehind files s entries) e).session := by
  unfold sessionBehind replyTo
  cases hc : command? e <;> simp [List.filterMap_append, List.foldl_append, hc, Reply.silent]

theorem destination_append (entries : List (Option String)) (e : Option String) :
    destination files (entries ++ [e]) =
      match target? e with
      | some path => placeFor? files path
      | none => destination files entries := by
  unfold destination
  cases ht : target? e <;> simp [List.filterMap_append, ht]

theorem mem_of_destination {entries : List (Option String)} {p : Place}
    (h : destination files entries = some p) : p ∈ entries.filterMap (opens? files) := by
  unfold destination at h
  obtain ⟨path, hlast, hp⟩ := Option.bind_eq_some_iff.mp h
  obtain ⟨e, he, hpath⟩ := List.mem_filterMap.mp (List.mem_of_getLast? hlast)
  refine List.mem_filterMap.mpr ⟨e, he, ?_⟩
  unfold opens?
  rw [hpath]
  exact hp

theorem routedTo_append (p : Place) (ts : List Turn) (t : Turn) :
    routedTo files p (ts ++ [t]) =
      if opens? files t.entry = some p then ""
      else routedTo files p ts ++ if t.destination = some p then t.reply.out else "" := by
  unfold routedTo
  by_cases ho : opens? files t.entry = some p
  · rw [List.rtakeWhile_concat_neg _ _ _ (by simp [ho]), if_pos ho]
    rfl
  · rw [List.rtakeWhile_concat_pos _ _ _ (by simp [ho]), if_neg ho, List.filter_append,
      List.map_append, concat_append]
    by_cases hd : t.destination = some p
    · simp [hd, concat_singleton]
    · simp [hd, concat]

theorem filterMap_turns (entries : List (Option String)) :
    ((turns files s entries).filterMap fun t => opens? files t.entry) =
      entries.filterMap (opens? files) := by
  have hentries := @map_entry_turnsFrom files s [] entries
  conv_rhs => rw [← hentries, List.filterMap_map]
  rfl

theorem standing_append (entries : List (Option String)) (e : Option String) (p : Place) :
    standing files (turns files s (entries ++ [e])) p =
      if opens? files e = some p then some (.file (.text ""))
      else if destination files entries = some p then
        some (.file (.text (routedTo files p (turns files s (entries ++ [e])))))
      else standing files (turns files s entries) p := by
  unfold standing
  simp only [filterMap_turns, List.filterMap_append, List.mem_append, turns_append, routedTo_append]
  by_cases ho : opens? files e = some p
  · simp [ho]
  · by_cases hd : destination files entries = some p
    · simp [ho, hd, mem_of_destination hd]
    · simp [ho, hd]

/-- An entry without results changes nothing where it opens no file. -/
theorem standing_append_of_quiet {entries : List (Option String)} {e : Option String} {p : Place}
    (ho : opens? files e ≠ some p)
    (hout : (replyTo files (sessionBehind files s entries) e).out = "") :
    standing files (turns files s (entries ++ [e])) p =
      standing files (turns files s entries) p := by
  rw [standing_append, if_neg ho]
  split
  · rename_i hd
    unfold standing
    rw [filterMap_turns, if_pos (mem_of_destination hd), turns_append, routedTo_append]
    simp [ho, hout]
  · rfl

/-! ## Lines -/

theorem strip_eq_iff (line word : String) :
    strip line = word ↔ stripChars line.toList = word.toList := by
  rw [← toList_strip, String.toList_inj]

theorem replyTo_of_target {e : Option String} {path : String} (h : target? e = some path)
    (s : Session) : replyTo files s e = .silent s := by
  obtain ⟨line, rfl, hline⟩ := Option.bind_eq_some_iff.mp h
  unfold replyTo command?
  dsimp only
  rw [if_pos (.inr (by rw [hline]; rfl))]

theorem ofLine_of_blank {line : String} (h : strip line = "") : Command.ofLine line = .skip := by
  rw [strip_eq_iff] at h
  unfold Command.ofLine
  rw [h]
  rfl

theorem runLine_of_blank {line : String} (h : strip line = "") (files : FileTree) (s : Session) :
    Shell.runLine files line s = .silent s := by
  unfold Shell.runLine Shell.runLineWithin
  rw [ofLine_of_blank h]

theorem replyTo_of_line {line : String} (h : redirection? line = none) (s : Session) :
    replyTo files s (some line) = Shell.runLine files line s := by
  unfold replyTo command?
  dsimp only
  by_cases hb : strip line = ""
  · rw [if_pos (.inl hb), runLine_of_blank hb]
  · rw [if_neg (by simp [hb, h])]

theorem eq_of_ofTrimmed_quit {cs : List Char} (h : Command.ofTrimmed cs = .quit) :
    cs = ":q".toList ∨ cs = ":quit".toList := by
  by_contra hcs
  unfold Command.ofTrimmed at h
  rw [if_neg hcs] at h
  repeat' split at h
  all_goals cases h

theorem asksToQuit_iff (line : String) :
    asksToQuit (some line) = true ↔ Command.ofLine line = .quit := by
  unfold asksToQuit
  simp only [Bool.or_eq_true, beq_iff_eq, strip_eq_iff]
  refine ⟨?_, eq_of_ofTrimmed_quit⟩
  unfold Command.ofLine
  rintro (h | h) <;> rw [h] <;> decide

theorem redirection?_of_asksToQuit {line : String} (h : asksToQuit (some line) = true) :
    redirection? line = none := by
  unfold asksToQuit at h
  simp only [Bool.or_eq_true, beq_iff_eq, strip_eq_iff] at h
  unfold redirection?
  rcases h with h | h <;> rw [h] <;> decide

end Console

end MatrixCalc
