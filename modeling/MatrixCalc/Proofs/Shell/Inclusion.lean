import MatrixCalc.Proofs.Shell.Growth
import MatrixCalc.Shell.Line
import Mathlib.Data.Finset.Card
import Mathlib.Logic.Relation

/-!
# Files that run files

A line may run a file, its lines may run further files, and so on. Where no file comes to run
itself, the depth that bounds this never matters:

1. each file that a file includes has fewer files below it than the file itself
   (`card_below_lt_of_includes`), so the files of the tree bound every nesting;
2. a line replies alike in two trees, within any depths that leave room for the files below it, if
   the trees read alike the paths that the line comes to read (`runLineWithin_congr`);
3. nothing but a line that asks to quit ends the session (`status_runLineWithin`).
-/

namespace MatrixCalc

/-! ## Inclusion -/

namespace FileTree

/-- The path can be read, and its file stands at the place. -/
def LeadsTo (t : FileTree) (path : String) (p : Place) : Prop :=
  ∃ c, t.read path = .ok c ∧ t.restsOn? path = some p

/-- The file at the first place has a line that runs the file at the second. -/
def Includes (t : FileTree) (p q : Place) : Prop :=
  ∃ c line path, t.find? p = some (.file c) ∧ line ∈ c.lines ∧
    Command.ofLine line = .runFile path ∧ t.LeadsTo path q

/-- Running a line comes to read a path: the line runs it, or a line of a file that it runs comes to
read it. -/
inductive Reads (t : FileTree) : (line path : String) → Prop
  | here {line path : String} : Command.ofLine line = .runFile path → Reads t line path
  | inside {line path inner next : String} {c : Content} : Command.ofLine line = .runFile path →
      t.read path = .ok c → inner ∈ c.lines → Reads t inner next → Reads t line next

/-- All that a line comes to read can be run: no path holds the null character, the files are texts,
and none of them comes to include itself. -/
structure Orderly (t : FileTree) (line : String) : Prop where
  noNull : ∀ path, t.Reads line path → Shell.holdsNull path = false
  decodes : ∀ path c, t.Reads line path → t.read path = .ok c → ∃ s, c = .text s
  acyclic : ∀ path p, t.Reads line path → t.LeadsTo path p → ¬ Relation.TransGen t.Includes p p

theorem Orderly.inside {t : FileTree} {line path inner : String} {c : Content}
    (h : t.Orderly line) (hline : Command.ofLine line = .runFile path) (hread : t.read path = .ok c)
    (hinner : inner ∈ c.lines) : t.Orderly inner where
  noNull := fun next hnext => h.noNull next (.inside hline hread hinner hnext)
  decodes := fun next d hnext => h.decodes next d (.inside hline hread hinner hnext)
  acyclic := fun next p hnext => h.acyclic next p (.inside hline hread hinner hnext)

/-- A line that runs no file reads nothing. -/
theorem not_reads {t : FileTree} {line : String}
    (h : ∀ path, Command.ofLine line ≠ .runFile path) (path : String) : ¬ t.Reads line path := by
  rintro (hline | ⟨hline, _, _, _⟩)
  · exact h path hline
  · exact h _ hline

theorem orderly_of_ne {t : FileTree} {line : String}
    (h : ∀ path, Command.ofLine line ≠ .runFile path) : t.Orderly line where
  noNull := fun path hr => absurd hr (not_reads h path)
  decodes := fun path _ hr => absurd hr (not_reads h path)
  acyclic := fun path _ hr => absurd hr (not_reads h path)

/-- A line that runs a file reads only that, if the lines of the file run none. -/
theorem eq_of_reads {t : FileTree} {line path next : String}
    (hline : Command.ofLine line = .runFile path)
    (hleaf : ∀ c, t.read path = .ok c → ∀ inner ∈ c.lines, ∀ next,
      Command.ofLine inner ≠ .runFile next) (h : t.Reads line next) : next = path := by
  cases h with
  | here hnext =>
    rw [hline] at hnext
    exact (Command.runFile.inj hnext).symm
  | inside hrun hread hinner hreads =>
    rw [hline] at hrun
    obtain rfl := Command.runFile.inj hrun
    exact absurd hreads (not_reads (hleaf _ hread _ hinner) _)

theorem orderly_of_leaf {t : FileTree} {line path : String}
    (hline : Command.ofLine line = .runFile path) (hnull : Shell.holdsNull path = false)
    (htext : ∀ c, t.read path = .ok c → ∃ s, c = .text s)
    (hleaf : ∀ c, t.read path = .ok c → ∀ inner ∈ c.lines, ∀ next,
      Command.ofLine inner ≠ .runFile next) : t.Orderly line where
  noNull := fun _ h => eq_of_reads hline hleaf h ▸ hnull
  decodes := by
    intro next c h hread
    rw [eq_of_reads hline hleaf h] at hread
    exact htext c hread
  acyclic := by
    intro next p h hleads hcycle
    rw [eq_of_reads hline hleaf h] at hleads
    obtain ⟨c, hread, hrest⟩ := hleads
    obtain ⟨q, hrest', hfind⟩ := exists_of_read hread
    obtain rfl : q = p := Option.some.inj (hrest'.symm.trans hrest)
    obtain ⟨_, ⟨d, inner, path', hd, hinner, hrun, _⟩, _⟩ := Relation.TransGen.head'_iff.mp hcycle
    rw [hfind] at hd
    cases hd
    exact hleaf c hread inner hinner path' hrun

/-! ## The files below a file -/

/-- The places of all files. -/
def filePlaces (t : FileTree) : Finset Place :=
  (t.entries.filterMap fun e =>
    match e.2 with
    | .file _ => some e.1
    | .directory => none).toFinset

theorem card_filePlaces_le (t : FileTree) : t.filePlaces.card ≤ t.fileCount := by
  unfold filePlaces fileCount
  refine (List.toFinset_card_le _).trans ?_
  rw [List.length_filterMap_eq_countP]
  refine (List.countP_mono_left ?_)
  intro e _
  cases e.2 <;> simp

theorem mem_entries {t : FileTree} {p : Place} {c : Content} (h : t.find? p = some (.file c)) :
    (p, Entry.file c) ∈ t.entries := by
  unfold find? at h
  split at h
  · cases h
  · obtain ⟨before, behind, hentries, -⟩ := List.lookup_eq_some_iff.mp h
    simp [hentries]

theorem mem_filePlaces {t : FileTree} {p : Place} {c : Content} (h : t.find? p = some (.file c)) :
    p ∈ t.filePlaces := by
  unfold filePlaces
  rw [List.mem_toFinset, List.mem_filterMap]
  exact ⟨(p, .file c), mem_entries h, rfl⟩

section

open scoped Classical

/-- The places of a file and of all files that it comes to include. -/
noncomputable def below (t : FileTree) (p : Place) : Finset Place :=
  t.filePlaces.filter (Relation.ReflTransGen t.Includes p)

theorem mem_below {t : FileTree} {p q : Place} :
    q ∈ t.below p ↔ q ∈ t.filePlaces ∧ Relation.ReflTransGen t.Includes p q :=
  Finset.mem_filter

theorem card_below_le (t : FileTree) (p : Place) : (t.below p).card ≤ t.fileCount :=
  (Finset.card_filter_le _ _).trans t.card_filePlaces_le

end

theorem mem_below_self {t : FileTree} {p : Place} {c : Content} (h : t.find? p = some (.file c)) :
    p ∈ t.below p :=
  mem_below.mpr ⟨mem_filePlaces h, .refl⟩

theorem card_below_lt_of_includes {t : FileTree} {p q : Place} (h : t.Includes p q)
    (hacyclic : ¬ Relation.TransGen t.Includes p p) : (t.below q).card < (t.below p).card := by
  apply Finset.card_lt_card
  rw [Finset.ssubset_iff_of_subset]
  · obtain ⟨c, _, _, hfind, _⟩ := id h
    refine ⟨p, mem_below_self hfind, ?_⟩
    intro hmem
    exact hacyclic (.head' h (mem_below.mp hmem).2)
  · intro r hr
    obtain ⟨hfile, hreach⟩ := mem_below.mp hr
    exact mem_below.mpr ⟨hfile, .head h hreach⟩

end FileTree

namespace Shell

/-! ## How a line ends -/

theorem status_showValue (rendering : Value → String) (s : Session) (text : String) :
    (showValue rendering s text).status = .goOn := by
  unfold showValue
  split <;> rfl

theorem status_runTrees (s : Session) (ts : List Tree) : (runTrees s ts).status = .goOn := by
  induction ts generalizing s with
  | nil => rfl
  | cons t ts ih =>
    unfold runTrees
    split
    · exact ih _
    · rfl

theorem status_runText (s : Session) (text : String) : (runText s text).status = .goOn := by
  unfold runText
  split
  · rfl
  · exact status_runTrees s _

theorem status_runLines {run : String → Session → Reply} {lines : List String}
    (h : ∀ line ∈ lines, ∀ s c, (run line s).status ≠ .crash c) (s : Session) :
    (runLines run lines s).status = .goOn := by
  induction lines generalizing s with
  | nil => rfl
  | cons line lines ih =>
    unfold runLines
    dsimp only
    split
    · rename_i c hc
      exact absurd hc (h line List.mem_cons_self s c)
    · exact ih (fun l hl => h l (List.mem_cons_of_mem _ hl)) _

theorem runLines_congr {run run' : String → Session → Reply} {lines : List String}
    (h : ∀ line ∈ lines, ∀ s, run line s = run' line s) (s : Session) :
    runLines run lines s = runLines run' lines s := by
  induction lines generalizing s with
  | nil => rfl
  | cons line lines ih =>
    unfold runLines
    rw [h line List.mem_cons_self s]
    dsimp only
    rw [ih fun l hl => h l (List.mem_cons_of_mem _ hl)]

theorem runLineWithin_of_runFile {line path : String} (h : Command.ofLine line = .runFile path)
    (hnull : holdsNull path = false) (t : FileTree) (depth : Nat) (s : Session) :
    runLineWithin t depth line s =
      match t.read path, depth with
      | .error f, _ => refuseFile s path f
      | .ok _, 0 => refuseFile s path .tooManyOpen
      | .ok content, depth + 1 =>
        endFile content (runLines (runLineWithin t depth) content.lines s) := by
  unfold runLineWithin
  rw [h]
  dsimp only
  rw [hnull]
  rfl

/-- A line that runs no file replies alike whatever the files are. -/
theorem runLineWithin_of_ne {line : String} (h : ∀ path, Command.ofLine line ≠ .runFile path)
    (t t' : FileTree) (depth depth' : Nat) (s : Session) :
    runLineWithin t' depth' line s = runLineWithin t depth line s := by
  unfold runLineWithin
  cases hline : Command.ofLine line with
  | runFile path => exact absurd hline (h path)
  | _ => rfl

theorem status_runLineWithin_of_ne {line : String}
    (h : ∀ path, Command.ofLine line ≠ .runFile path) (t : FileTree) (depth : Nat) (s : Session) :
    (runLineWithin t depth line s).status =
      if Command.ofLine line = .quit then .quit else .goOn := by
  unfold runLineWithin
  cases hline : Command.ofLine line with
  | runFile path => exact absurd hline (h path)
  | inspect text => exact status_showValue _ s text
  | display text => exact status_showValue _ s text
  | statements text => exact status_runText s text
  | _ => rfl

/-- Only a line that asks to quit ends the session; one that stands in a file does not. -/
theorem status_runLineWithin {t : FileTree} {line : String} (h : t.Orderly line) (depth : Nat)
    (s : Session) :
    (runLineWithin t depth line s).status =
      if Command.ofLine line = .quit then .quit else .goOn := by
  induction depth using Nat.strong_induction_on generalizing line s with
  | _ depth ih =>
    by_cases hrun : ∃ path, Command.ofLine line = .runFile path
    · obtain ⟨path, hline⟩ := hrun
      rw [runLineWithin_of_runFile hline (h.noNull path (.here hline)), hline, if_neg (by simp)]
      split
      · rfl
      · rfl
      · rename_i content depth hread
        obtain ⟨text, rfl⟩ := h.decodes path content (.here hline) hread
        refine status_runLines ?_ s
        intro inner hinner s c
        rw [ih depth depth.lt_succ_self (h.inside hline hread hinner)]
        split <;> simp
    · exact status_runLineWithin_of_ne (fun path hpath => hrun ⟨path, hpath⟩) t depth s

/-- A line replies alike in two trees that read alike what the line comes to read, if both depths
leave room for the files below the one that it runs. -/
theorem runLineWithin_congr {t t' : FileTree} {line : String} {depth depth' : Nat}
    (h : t.Orderly line) (hsame : ∀ path, t.Reads line path → t'.read path = t.read path)
    (hroom : ∀ path p, Command.ofLine line = .runFile path → t.LeadsTo path p →
      (t.below p).card ≤ depth ∧ (t.below p).card ≤ depth') (s : Session) :
    runLineWithin t' depth' line s = runLineWithin t depth line s := by
  -- One step down, both depths and the number of files below the file that is run get smaller.
  induction depth using Nat.strong_induction_on generalizing depth' line s with
  | _ depth ih =>
    by_cases hrun : ∃ path, Command.ofLine line = .runFile path
    · obtain ⟨path, hline⟩ := hrun
      have hnull := h.noNull path (.here hline)
      rw [runLineWithin_of_runFile hline hnull, runLineWithin_of_runFile hline hnull,
        hsame path (.here hline)]
      cases hread : t.read path with
      | error f => rfl
      | ok c =>
        obtain ⟨p, hrest, hfind⟩ := FileTree.exists_of_read hread
        have hpos : 0 < (t.below p).card :=
          Finset.card_pos.mpr ⟨p, FileTree.mem_below_self hfind⟩
        obtain ⟨hd, hd'⟩ := hroom path p hline ⟨c, hread, hrest⟩
        obtain ⟨d, rfl⟩ := Nat.exists_eq_succ_of_ne_zero (hpos.trans_le hd).ne'
        obtain ⟨d', rfl⟩ := Nat.exists_eq_succ_of_ne_zero (hpos.trans_le hd').ne'
        dsimp only
        congr 1
        refine runLines_congr ?_ s
        intro inner hinner s
        refine ih d d.lt_succ_self (h.inside hline hread hinner)
          (fun next hnext => hsame next (.inside hline hread hinner hnext)) ?_ s
        intro next q hnext hq
        have hlt : (t.below q).card < (t.below p).card :=
          FileTree.card_below_lt_of_includes ⟨c, inner, next, hfind, hinner, hnext, hq⟩
            (h.acyclic path p (.here hline) ⟨c, hread, hrest⟩)
        exact ⟨by omega, by omega⟩
    · exact runLineWithin_of_ne (fun path hpath => hrun ⟨path, hpath⟩) t t' _ _ s

/-- A line replies alike in a tree that has grown, if nothing that it comes to read rests on a place
that was written. -/
theorem runLine_of_grown {opened : List Place} {t t' : FileTree} (hgrown : t.Grown opened t')
    {line : String} (h : t.Orderly line)
    (hapart : ∀ path p, t.Reads line path → t.restsOn? path = some p → p ∉ opened) (s : Session) :
    runLine t' line s = runLine t line s := by
  unfold runLine
  refine runLineWithin_congr h (fun path hpath => hgrown.read (hapart path · hpath)) ?_ s
  intro path p _ _
  have hle := t.card_below_le p
  have hcount := hgrown.count
  exact ⟨by omega, by omega⟩

end Shell

end MatrixCalc
