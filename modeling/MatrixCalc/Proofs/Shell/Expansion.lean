import MatrixCalc.Proofs.Shell.Inclusion
import MatrixCalc.Proofs.Shell.LineByLine

/-!
# Running a file is running its expansion

The lines of a file may be written out: a line that runs a file is replaced by the lines of that
file, written out in turn, a line that runs none stays, and lines that ask to quit are left out.
Where no file comes to run itself, running a file is running these lines (`runLine_eq_expansion`).

1. `Expands` writes lines out. It has at most one result (`Expands.unique`), and for orderly lines it
   has one (`exists_expands`): by induction over inclusion (`Orderly.induction`), since the files
   below a file get fewer.
2. `runLine_of_read`: running a line that runs a file is running the lines of the file, without a
   bound on the depth.
3. `runLines_of_expands`: writing lines out does not change what they do. Nothing crashes, so no line
   keeps the lines behind it from being run.
4. A file that cannot be read is named in one line (`isLine_readingError`).
-/

namespace MatrixCalc

open Text

/-! ## Writing files out -/

namespace FileTree

/-- The line is left as it is: it does not ask to quit, and runs no file that can be read. -/
def stays (t : FileTree) (line : String) : Bool :=
  match Command.ofLine line with
  | .quit => false
  | .runFile path => (t.read path).toOption.isNone
  | _ => true

theorem stays_iff {t : FileTree} {line : String} : t.stays line = true ↔
    Command.ofLine line ≠ .quit ∧
      ∀ path, Command.ofLine line = .runFile path → ∃ f, t.read path = .error f := by
  unfold stays
  cases Command.ofLine line with
  | runFile path => cases h : t.read path <;> simp [Except.toOption, h]
  | _ => simp

theorem read_ne_of_stays {t : FileTree} {line path : String} (h : t.stays line = true)
    (hline : Command.ofLine line = .runFile path) (c : Content) : t.read path ≠ .ok c := by
  obtain ⟨f, hf⟩ := (stays_iff.1 h).2 path hline
  rw [hf]
  exact nofun

/-- The first lines, written out, are the second. -/
inductive Expands (t : FileTree) : List String → List String → Prop where
  | nil : Expands t [] []
  | quit {line : String} {lines out : List String} : Command.ofLine line = .quit →
      Expands t lines out → Expands t (line :: lines) out
  | file {line path : String} {c : Content} {lines inner out : List String} :
      Command.ofLine line = .runFile path → t.read path = .ok c → Expands t c.lines inner →
      Expands t lines out → Expands t (line :: lines) (inner ++ out)
  | keep {line : String} {lines out : List String} : t.stays line = true →
      Expands t lines out → Expands t (line :: lines) (line :: out)

theorem Expands.unique {t : FileTree} {lines out out' : List String} (h : t.Expands lines out)
    (h' : t.Expands lines out') : out = out' := by
  induction h generalizing out' with
  | nil =>
    cases h'
    rfl
  | quit hline _ ih =>
    cases h' with
    | quit _ h' => exact ih h'
    | file hline' _ _ _ =>
      rw [hline] at hline'
      cases hline'
    | keep hstays _ => exact absurd hline (stays_iff.1 hstays).1
  | file hline hread _ _ ihinner ih =>
    cases h' with
    | quit hline' _ =>
      rw [hline] at hline'
      cases hline'
    | file hline' hread' hinner h' =>
      rw [hline] at hline'
      cases hline'
      rw [hread] at hread'
      cases hread'
      rw [ihinner hinner, ih h']
    | keep hstays _ => exact absurd hread (read_ne_of_stays hstays hline _)
  | keep hstays _ ih =>
    cases h' with
    | quit hline' _ => exact absurd hline' (stays_iff.1 hstays).1
    | file hline' hread' _ _ => exact absurd hread' (read_ne_of_stays hstays hline' _)
    | keep _ h' => rw [ih h']

theorem Expands.stays {t : FileTree} {lines out : List String} (h : t.Expands lines out) :
    ∀ line ∈ out, t.stays line = true := by
  induction h with
  | nil => exact List.forall_mem_nil _
  | quit _ _ ih => exact ih
  | file _ _ _ _ ihinner ih => exact List.forall_mem_append.2 ⟨ihinner, ih⟩
  | keep hstays _ ih => exact List.forall_mem_cons.2 ⟨hstays, ih⟩

/-- What holds of lines, and passes from a line to the lines of the file that it runs, holds of the
lines written out. -/
theorem Expands.forall_mem {t : FileTree} {lines out : List String} {P : String → Prop}
    (h : t.Expands lines out)
    (hinside : ∀ line path c, P line → Command.ofLine line = .runFile path → t.read path = .ok c →
      ∀ inner ∈ c.lines, P inner)
    (hlines : ∀ line ∈ lines, P line) : ∀ line ∈ out, P line := by
  induction h with
  | nil => exact List.forall_mem_nil _
  | quit _ _ ih => exact ih (List.forall_mem_cons.1 hlines).2
  | file hline hread _ _ ihinner ih =>
    rw [List.forall_mem_cons] at hlines
    exact List.forall_mem_append.2 ⟨ihinner (hinside _ _ _ hlines.1 hline hread), ih hlines.2⟩
  | keep _ _ ih =>
    rw [List.forall_mem_cons] at hlines
    exact List.forall_mem_cons.2 ⟨hlines.1, ih hlines.2⟩

theorem Expands.orderly {t : FileTree} {lines out : List String} (h : t.Expands lines out)
    (hlines : ∀ line ∈ lines, t.Orderly line) : ∀ line ∈ out, t.Orderly line :=
  h.forall_mem (fun _ _ _ ho hline hread _ => ho.inside hline hread) hlines

theorem Expands.append {t : FileTree} {lines more out out' : List String} (h : t.Expands lines out)
    (h' : t.Expands more out') : t.Expands (lines ++ more) (out ++ out') := by
  induction h with
  | nil => exact h'
  | quit hline _ ih => exact .quit hline ih
  | file hline hread hinner _ _ ih =>
    rw [List.append_assoc]
    exact .file hline hread hinner ih
  | keep hstays _ ih => exact .keep hstays ih

/-- Induction over inclusion: what holds of a line if it holds of the lines of the file that it
runs, holds of every orderly line. -/
theorem Orderly.induction {t : FileTree} {motive : String → Prop}
    (step : ∀ line, t.Orderly line →
      (∀ path c, Command.ofLine line = .runFile path → t.read path = .ok c →
        ∀ inner ∈ c.lines, motive inner) → motive line)
    {line : String} (h : t.Orderly line) : motive line := by
  -- the number bounds the files below the one that the line runs
  have key : ∀ n line, t.Orderly line → (∀ path p, Command.ofLine line = .runFile path →
      t.LeadsTo path p → (t.below p).card < n) → motive line := by
    intro n
    induction n with
    | zero =>
      intro line h hcard
      refine step line h fun path c hline hread => ?_
      obtain ⟨p, hrest, -⟩ := exists_of_read hread
      exact absurd (hcard path p hline ⟨c, hread, hrest⟩) (Nat.not_lt_zero _)
    | succ n ih =>
      intro line h hcard
      refine step line h fun path c hline hread inner hinner => ?_
      obtain ⟨p, hrest, hfind⟩ := exists_of_read hread
      have hp := hcard path p hline ⟨c, hread, hrest⟩
      refine ih inner (h.inside hline hread hinner) fun next q hnext hq => ?_
      have hlt : (t.below q).card < (t.below p).card :=
        card_below_lt_of_includes ⟨c, inner, next, hfind, hinner, hnext, hq⟩
          (h.acyclic path p (.here hline) ⟨c, hread, hrest⟩)
      omega
  exact key (t.fileCount + 1) line h fun _ p _ _ => Nat.lt_succ_of_le (t.card_below_le p)

theorem exists_expands_of_forall {t : FileTree} {lines : List String}
    (h : ∀ line ∈ lines, ∃ out, t.Expands [line] out) : ∃ out, t.Expands lines out := by
  induction lines with
  | nil => exact ⟨[], .nil⟩
  | cons line lines ih =>
    rw [List.forall_mem_cons] at h
    obtain ⟨out, hout⟩ := h.1
    obtain ⟨out', hout'⟩ := ih h.2
    exact ⟨out ++ out', hout.append hout'⟩

theorem exists_expands {t : FileTree} {line : String} (h : t.Orderly line) :
    ∃ out, t.Expands [line] out := by
  refine h.induction (motive := fun line => ∃ out, t.Expands [line] out) fun line _ ih => ?_
  by_cases hquit : Command.ofLine line = .quit
  · exact ⟨[], .quit hquit .nil⟩
  · by_cases hfile : ∃ path c, Command.ofLine line = .runFile path ∧ t.read path = .ok c
    · obtain ⟨path, c, hline, hread⟩ := hfile
      obtain ⟨inner, hinner⟩ := exists_expands_of_forall (ih path c hline hread)
      exact ⟨inner ++ [], .file hline hread hinner .nil⟩
    · refine ⟨[line], .keep (stays_iff.2 ⟨hquit, fun path hline => ?_⟩) .nil⟩
      cases hread : t.read path with
      | ok c => exact absurd ⟨path, c, hline, hread⟩ hfile
      | error f => exact ⟨f, rfl⟩

end FileTree

/-! ## Running what is written out -/

namespace Reply

theorem after_empty (r : Reply) : r.after "" "" = r := by
  unfold after
  rw [String.empty_append, String.empty_append]

theorem after_after (r : Reply) (out err out' err' : String) :
    (r.after out err).after out' err' = r.after (out' ++ out) (err' ++ err) := by
  unfold after
  rw [String.append_assoc, String.append_assoc]

end Reply

namespace Shell

section RunLines

variable {run : String → Session → Reply} {lines : List String}

theorem runLines_cons {line : String} {s : Session} (h : ∀ c, (run line s).status ≠ .crash c) :
    runLines run (line :: lines) s =
      (runLines run lines (run line s).session).after (run line s).out (run line s).err := by
  rw [runLines]
  split
  · rename_i c hc
    exact absurd hc (h c)
  · rfl

/-- Lines that do not crash are run, and then the lines behind them. -/
theorem runLines_append (h : ∀ line ∈ lines, ∀ s c, (run line s).status ≠ .crash c)
    (more : List String) (s : Session) :
    runLines run (lines ++ more) s =
      (runLines run more (runLines run lines s).session).after (runLines run lines s).out
        (runLines run lines s).err := by
  induction lines generalizing s with
  | nil => exact (Reply.after_empty _).symm
  | cons line lines ih =>
    rw [List.forall_mem_cons] at h
    rw [List.cons_append, runLines_cons (h.1 s), runLines_cons (h.1 s), ih h.2, Reply.after_after]
    rfl

end RunLines

section Orderly

variable {t : FileTree} {line : String} (h : t.Orderly line)

include h

theorem status_runLine (s : Session) :
    (runLine t line s).status = if Command.ofLine line = .quit then .quit else .goOn :=
  status_runLineWithin h _ s

theorem status_runLine_ne_crash (s : Session) (c : Crash) :
    (runLine t line s).status ≠ .crash c := by
  rw [status_runLine h]
  split <;> simp

/-- A bound on the depth does not matter if it leaves room for all files. -/
theorem runLineWithin_eq_runLine {depth : Nat} (hdepth : t.fileCount ≤ depth) (s : Session) :
    runLineWithin t depth line s = runLine t line s := by
  unfold runLine
  refine runLineWithin_congr h (fun _ _ => rfl) (fun _ p _ _ => ?_) s
  have hle := t.card_below_le p
  omega

/-- Running a file is running its lines. -/
theorem runLine_of_read {path : String} {c : Content} (hline : Command.ofLine line = .runFile path)
    (hread : t.read path = .ok c) (s : Session) :
    runLine t line s = runLines (runLine t) c.lines s := by
  obtain ⟨text, rfl⟩ := h.decodes path c (.here hline) hread
  rw [runLine, runLineWithin_of_runFile hline (h.noNull path (.here hline)), hread]
  exact runLines_congr
    (fun inner hinner s => runLineWithin_eq_runLine (h.inside hline hread hinner) le_rfl s) s

theorem runLine_of_read_error {path : String} {f : FileFault}
    (hline : Command.ofLine line = .runFile path) (hread : t.read path = .error f) (s : Session) :
    runLine t line s = refuseFile s path f := by
  rw [runLine, runLineWithin_of_runFile hline (h.noNull path (.here hline)), hread]

end Orderly

theorem runLine_of_quit {t : FileTree} {line : String} (h : Command.ofLine line = .quit)
    (s : Session) : runLine t line s = ⟨s, "", "", .quit⟩ := by
  unfold runLine runLineWithin
  rw [h]

/-- Lines do what they do written out. -/
theorem runLines_of_expands {t : FileTree} {lines out : List String} (h : t.Expands lines out)
    (hlines : ∀ line ∈ lines, t.Orderly line) (s : Session) :
    runLines (runLine t) lines s = runLines (runLine t) out s := by
  induction h generalizing s with
  | nil => rfl
  | quit hline _ ih =>
    rw [List.forall_mem_cons] at hlines
    rw [runLines_cons (status_runLine_ne_crash hlines.1 s), runLine_of_quit hline,
      Reply.after_empty, ih hlines.2]
  | @file _ _ c _ _ _ hline hread hinner _ ihinner ih =>
    rw [List.forall_mem_cons] at hlines
    have horderly : ∀ line ∈ c.lines, t.Orderly line :=
      fun _ hmem => hlines.1.inside hline hread hmem
    -- the line does what the lines of its file do, and these what they do written out
    rw [runLines_cons (status_runLine_ne_crash hlines.1 s), runLine_of_read hlines.1 hline hread,
      ihinner horderly, ih hlines.2,
      runLines_append fun line hmem => status_runLine_ne_crash (hinner.orderly horderly line hmem)]
  | keep _ _ ih =>
    rw [List.forall_mem_cons] at hlines
    have hcrash := status_runLine_ne_crash hlines.1 s
    rw [runLines_cons hcrash, runLines_cons hcrash, ih hlines.2]

/-- Lines that all go on are run in turn, and what they write is put together. -/
theorem runLines_eq_replies {t : FileTree} {lines : List String}
    (h : ∀ line ∈ lines, ∀ s, (runLine t line s).status = .goOn) (s : Session) :
    (∀ r ∈ replies t lines s, r.status = .goOn) ∧
      runLines (runLine t) lines s = ⟨sessionBehind t lines s,
        concat ((replies t lines s).map Reply.out), concat ((replies t lines s).map Reply.err),
        .goOn⟩ := by
  induction lines generalizing s with
  | nil => exact ⟨List.forall_mem_nil _, rfl⟩
  | cons line lines ih =>
    rw [List.forall_mem_cons] at h
    obtain ⟨hgoOn, hrest⟩ := ih h.2 (runLine t line s).session
    refine ⟨List.forall_mem_cons.2 ⟨h.1 s, hgoOn⟩, ?_⟩
    rw [runLines_cons (by simp [h.1 s]), hrest]
    rfl

end Shell

/-! ## Files that cannot be read -/

theorem Text.not_mem_cutLines (line s : List Char) (h : '\n' ∉ line) :
    (∀ l ∈ (cutLines line s).1, '\n' ∉ l) ∧ '\n' ∉ (cutLines line s).2 := by
  fun_induction cutLines line s with
  | case1 line => exact ⟨List.forall_mem_nil _, by simpa using h⟩
  | case2 line => exact ⟨List.forall_mem_nil _, by simpa using h⟩
  | case3 line rest ih =>
    obtain ⟨hended, hrest⟩ := ih List.not_mem_nil
    exact ⟨List.forall_mem_cons.2 ⟨by simpa using h, hended⟩, hrest⟩
  | case4 line c rest _ _ _ ih =>
    obtain ⟨hended, hrest⟩ := ih List.not_mem_nil
    exact ⟨List.forall_mem_cons.2 ⟨by simpa using h, hended⟩, hrest⟩
  | case5 line c rest _ _ hc ih =>
    refine ih fun hmem => ?_
    rcases List.mem_cons.1 hmem with rfl | hmem
    · exact hc (.inl rfl)
    · exact h hmem

theorem Text.isLine_of_mem_fileLines {s line : String} (h : line ∈ fileLines s) : IsLine line := by
  obtain ⟨hended, hrest⟩ := not_mem_cutLines [] s.toList List.not_mem_nil
  obtain ⟨chars, hchars, rfl⟩ := List.mem_map.1 h
  refine isLine_ofList ?_
  rcases List.mem_append.1 hchars with hmem | hmem
  · exact hended chars hmem
  · unfold lastLine at hmem
    split at hmem
    · cases hmem
    · rw [List.mem_singleton] at hmem
      subst hmem
      split
      · exact fun h => hrest (List.mem_of_mem_dropLast h)
      · exact hrest

theorem FileTree.Orderly.isLine {t : FileTree} {line path : String} {c : Content}
    (h : t.Orderly line) (hline : Command.ofLine line = .runFile path)
    (hread : t.read path = .ok c) : ∀ inner ∈ c.lines, IsLine inner := by
  obtain ⟨text, rfl⟩ := h.decodes path c (.here hline) hread
  exact fun _ => isLine_of_mem_fileLines

/-- Lines written out hold no line ends, since they are lines of files. -/
theorem FileTree.Expands.isLine {t : FileTree} {lines out : List String} (h : t.Expands lines out)
    (hlines : ∀ line ∈ lines, t.Orderly line ∧ IsLine line) : ∀ line ∈ out, IsLine line := by
  have hout := h.forall_mem (P := fun line => t.Orderly line ∧ IsLine line)
    (fun _ _ _ hl hline hread inner hinner =>
      ⟨hl.1.inside hline hread hinner, hl.1.isLine hline hread inner hinner⟩) hlines
  exact fun line hmem => (hout line hmem).2

/-- The path that a line runs is a part of the line. -/
theorem Command.isLine_of_runFile {line path : String} (h : Command.ofLine line = .runFile path)
    (hline : IsLine line) : IsLine path := by
  unfold ofLine ofTrimmed at h
  split_ifs at h
  split at h
  · rename_i chars hchars
    cases h
    refine isLine_ofList fun hmem => hline (mem_of_mem_stripChars ?_)
    rw [← List.isPrefixOf?_eq_some_iff_append_eq.1 hchars]
    exact List.mem_append_right _ (mem_of_mem_stripChars hmem)
  · split at h
    · cases h
    · split at h <;> cases h

theorem FileFault.isLine_message (f : FileFault) (path : String) : IsLine (f.message path) := by
  refine IsLine.append ?_ (isLine_quoted path)
  cases f <;> exact isLine_ofList (by decide)

/-- The message for a file that cannot be read. -/
def readingError (path : String) (f : FileFault) : String :=
  "Error reading '" ++ path ++ "': " ++ f.message path

theorem isLine_readingError {path : String} (h : IsLine path) (f : FileFault) :
    IsLine (readingError path f) :=
  (((isLine_ofList (by decide)).append h).append (isLine_ofList (by decide))).append
    (f.isLine_message path)

/-! ## Running a file -/

/-- The paths that the lines of a file run. -/
def Content.paths (c : Content) : List String :=
  c.lines.filterMap fun line =>
    match Command.ofLine line with
    | .runFile path => some path
    | _ => none

theorem Content.mem_paths {c : Content} {line path : String} (hmem : line ∈ c.lines)
    (hline : Command.ofLine line = .runFile path) : path ∈ c.paths := by
  refine List.mem_filterMap.2 ⟨line, hmem, ?_⟩
  rw [hline]

/-- All files can be run: they are texts, none of their lines runs a path with the null character, and
none of them comes to include itself. -/
structure FileTree.Tidy (t : FileTree) : Prop where
  texts : ∀ p c, t.find? p = some (.file c) → ∃ s, c = .text s
  noNull : ∀ p c, t.find? p = some (.file c) → ∀ path ∈ c.paths, Shell.holdsNull path = false
  acyclic : ∀ p, ¬ Relation.TransGen t.Includes p p

theorem FileTree.Tidy.orderly {t : FileTree} (h : t.Tidy) {line : String}
    (hline : ∀ path, Command.ofLine line = .runFile path → Shell.holdsNull path = false) :
    t.Orderly line where
  noNull := by
    intro path hreads
    induction hreads with
    | here hrun => exact hline _ hrun
    | inside _ hread hinner _ ih =>
      obtain ⟨p, -, hfind⟩ := exists_of_read hread
      exact ih fun next hnext => h.noNull p _ hfind next (Content.mem_paths hinner hnext)
  decodes := by
    intro path c _ hread
    obtain ⟨p, -, hfind⟩ := exists_of_read hread
    exact h.texts p c hfind
  acyclic := fun _ p _ _ => h.acyclic p

/-- **Running a file is running its expansion.** In a tree of texts that do not come to include
themselves, the lines of a file are written out in one way. A line that runs the file goes on, and
leaves and writes what these lines do one after another, all of which go on. Lines that run a file are
among them only if it cannot be read, and then they write one line that says so. No bound on the depth
matters that leaves room for all files. -/
theorem Shell.runLine_eq_expansion {t : FileTree} (h : t.Tidy) {line path : String} {c : Content}
    (hline : Command.ofLine line = .runFile path) (hnull : holdsNull path = false)
    (hread : t.read path = .ok c) :
    ∃ lines, t.Expands c.lines lines ∧ (∀ out, t.Expands c.lines out → out = lines) ∧
      (∀ inner ∈ lines, ∀ next, Command.ofLine inner = .runFile next →
        ∃ f, t.read next = .error f ∧ IsLine (readingError next f) ∧
          ∀ s, runLine t inner s = ⟨s, "", readingError next f ++ "\n", .goOn⟩) ∧
      ∀ s, (∀ r ∈ replies t lines s, r.status = .goOn) ∧
        runLine t line s = ⟨sessionBehind t lines s, concat ((replies t lines s).map Reply.out),
          concat ((replies t lines s).map Reply.err), .goOn⟩ ∧
        ∀ depth, t.fileCount ≤ depth → runLineWithin t depth line s = runLine t line s := by
  have ho : t.Orderly line := h.orderly fun next hnext => by
    rw [hline] at hnext
    cases hnext
    exact hnull
  have hinside : ∀ inner ∈ c.lines, t.Orderly inner := fun _ hmem => ho.inside hline hread hmem
  obtain ⟨lines, hlines⟩ := FileTree.exists_expands_of_forall fun inner hmem =>
    FileTree.exists_expands (hinside inner hmem)
  have horderly := hlines.orderly hinside
  refine ⟨lines, hlines, fun out hout => hout.unique hlines, ?_, fun s => ?_⟩
  · intro inner hmem next hnext
    obtain ⟨f, hf⟩ := (FileTree.stays_iff.1 (hlines.stays inner hmem)).2 next hnext
    have hisLine := hlines.isLine (fun inner hmem =>
      ⟨hinside inner hmem, ho.isLine hline hread inner hmem⟩) inner hmem
    exact ⟨f, hf, isLine_readingError (Command.isLine_of_runFile hnext hisLine) f,
      runLine_of_read_error (horderly inner hmem) hnext hf⟩
  · have hgoOn : ∀ inner ∈ lines, ∀ s, (runLine t inner s).status = .goOn := by
      intro inner hmem s
      have hquit := (FileTree.stays_iff.1 (hlines.stays inner hmem)).1
      rw [status_runLine (horderly inner hmem), if_neg hquit]
    obtain ⟨hreplies, hruns⟩ := runLines_eq_replies hgoOn s
    refine ⟨hreplies, ?_, fun depth hdepth => runLineWithin_eq_runLine ho hdepth s⟩
    rw [runLine_of_read ho hline hread, runLines_of_expands hlines hinside, hruns]

theorem Shell.runLine_eq_expansion_nested :
    let a := Content.text "x\n?<< b\n:q\n?<< ./b"
    let b := Content.text "?<< none\n:quit\n:vars\n"
    let t : FileTree := ⟨[(["a"], .file a), (["b"], .file b)]⟩
    let lines := ["x", "?<< none", ":vars", "?<< none", ":vars"]
    t.Tidy ∧ t.read "a" = .ok a ∧ t.Expands a.lines lines ∧
      ∀ s, runLine t "?<< a" s = ⟨sessionBehind t lines s,
        concat ((replies t lines s).map Reply.out), concat ((replies t lines s).map Reply.err),
        .goOn⟩ := by
  intro a b t lines
  have hreada : t.read "a" = .ok a := by with_unfolding_all rfl
  have hreadb : t.read "b" = .ok b := by with_unfolding_all rfl
  have hreadb' : t.read "./b" = .ok b := by with_unfolding_all rfl
  have hnone : t.read "none" = .error .notFound := by with_unfolding_all rfl
  have hfiles : ∀ p c, t.find? p = some (.file c) → p = ["a"] ∧ c = a ∨ p = ["b"] ∧ c = b := by
    intro p c hfind
    simpa [t] using FileTree.mem_entries hfind
  have hb : b.paths = ["none"] := by decide +kernel
  have hincludes : ∀ p q, t.Includes p q → p = ["a"] ∧ q = ["b"] := by
    rintro p q ⟨c, line, path, hfind, hmem, hline, d, hd, hrest⟩
    have hpath := Content.mem_paths hmem hline
    obtain ⟨rfl, rfl⟩ | ⟨rfl, rfl⟩ := hfiles p c hfind
    · have hq : ∀ path ∈ a.paths, t.restsOn? path = some ["b"] := by decide +kernel
      rw [hq path hpath] at hrest
      exact ⟨rfl, (Option.some.inj hrest).symm⟩
    · rw [hb, List.mem_singleton] at hpath
      rw [hpath, hnone] at hd
      cases hd
  have htidy : t.Tidy := by
    refine ⟨?_, ?_, ?_⟩
    · intro p c hfind
      obtain ⟨-, rfl⟩ | ⟨-, rfl⟩ := hfiles p c hfind
      · exact ⟨_, rfl⟩
      · exact ⟨_, rfl⟩
    · intro p c hfind
      obtain ⟨-, rfl⟩ | ⟨-, rfl⟩ := hfiles p c hfind
      · decide +kernel
      · decide +kernel
    · intro p hcycle
      obtain ⟨q, hhead, -⟩ := Relation.TransGen.head'_iff.1 hcycle
      obtain ⟨r, -, htail⟩ := Relation.TransGen.tail'_iff.1 hcycle
      obtain rfl := (hincludes p q hhead).1
      exact absurd (hincludes r _ htail).2 (by decide)
  have hinner : t.Expands b.lines ["?<< none", ":vars"] := by
    rw [show b.lines = ["?<< none", ":quit", ":vars"] by decide +kernel]
    exact .keep (by decide +kernel) (.quit (by decide +kernel) (.keep (by decide +kernel) .nil))
  have hexpands : t.Expands a.lines lines := by
    rw [show a.lines = ["x", "?<< b", ":q", "?<< ./b"] by decide +kernel]
    exact .keep (by decide +kernel) (.file (by decide +kernel) hreadb hinner
      (.quit (by decide +kernel) (.file (by decide +kernel) hreadb' hinner .nil)))
  have hline : Command.ofLine "?<< a" = .runFile "a" := by decide +kernel
  obtain ⟨lines', -, hunique, -, hruns⟩ :=
    Shell.runLine_eq_expansion htidy hline (by decide +kernel) hreada
  obtain rfl := hunique lines hexpands
  exact ⟨htidy, hreada, hexpands, fun s => (hruns s).2.1⟩

end MatrixCalc
