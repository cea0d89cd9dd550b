import MatrixCalc.Shell.Files

/-!
# Trees that have grown by files

While results are redirected, files are made, emptied and filled, and nothing else in the tree of
files changes. A tree that has grown so from another one at a list of places

1. reads a path as before, unless what the path gives rests on one of these places (`Grown.read`);
2. lets the same paths be opened for writing, at the same places (`Grown.placeToWrite`).

What reading a path gives rests on a single place (`restsOn?`): where the path leads, or where it
breaks off because nothing stands there.
-/

namespace MatrixCalc.FileTree

/-! ## Writing a file -/

theorem lookup_putIn (p q : Place) (e : Entry) (xs : List (Place × Entry)) :
    (putIn p e xs).lookup q = if q = p then some e else xs.lookup q := by
  induction xs with
  | nil =>
    unfold putIn
    rw [List.lookup_cons, List.lookup_nil]
    by_cases hq : q = p
    · rw [beq_iff_eq.2 hq, if_pos hq]
    · rw [beq_eq_false_iff_ne.2 hq, if_neg hq]
  | cons x xs ih =>
    obtain ⟨k, d⟩ := x
    unfold putIn
    dsimp only
    by_cases hk : k = p
    · subst hk
      rw [if_pos rfl, List.lookup_cons, List.lookup_cons]
      by_cases hq : q = k
      · rw [beq_iff_eq.2 hq, if_pos hq]
      · rw [beq_eq_false_iff_ne.2 hq, if_neg hq]
    · rw [if_neg hk, List.lookup_cons, List.lookup_cons, ih]
      by_cases hq : q = k
      · rw [beq_iff_eq.2 hq]
        exact (if_neg fun h => hk (hq.symm.trans h)).symm
      · rw [beq_eq_false_iff_ne.2 hq]

theorem find?_write {t : FileTree} {p : Place} (hp : t.find? p ≠ some .directory) (s : String)
    (q : Place) :
    (t.write p s).find? q = if q = p then some (.file (.text s)) else t.find? q := by
  have hgiven : p.isGiven = false := by
    rw [Bool.eq_false_iff]
    intro h
    exact hp (by unfold find?; rw [if_pos h])
  unfold find? write put
  rw [lookup_putIn]
  by_cases hq : q = p
  · subst hq
    simp [hgiven]
  · simp [hq]

theorem fileCount_le_write (t : FileTree) (p : Place) (s : String) :
    t.fileCount ≤ (t.write p s).fileCount := by
  unfold write put fileCount
  dsimp only
  induction t.entries with
  | nil => exact Nat.zero_le _
  | cons x xs ih =>
    unfold putIn
    split
    · simp only [List.countP_cons]
      split <;> simp
    · simp only [List.countP_cons]
      omega

/-! ## Where a path leads -/

/-- The place of a target that is no directory. -/
def Target.place? : Target → Option Place
  | .file p _ => some p
  | .missing p => some p
  | .directory => none
  | .overlong => none

/-- The place that a walk leads to, or at which it breaks off because nothing stands there. -/
def endOf? (t : FileTree) : Place → List String → Option Place
  | _, [] => none
  | p, name :: names =>
    if name = "." then t.endOf? p names
    else if name = ".." then t.endOf? p.up names
    else if maxNameBytes < name.utf8ByteSize then none
    else
      match t.find? (name :: p) with
      | some .directory => t.endOf? (name :: p) names
      | some (.file _) => if names = [] then some (name :: p) else none
      | none => some (name :: p)

/-- The place that decides what reading a path gives, if one outside directories does. -/
def restsOn? (t : FileTree) (path : String) : Option Place :=
  if maxPathBytes < path.utf8ByteSize then none else t.endOf? (startOf path) (steps path)

theorem endOf?_of_walk {t : FileTree} {names : List String} {p q : Place} {g : Target}
    (h : t.walk p names = .ok g) (hg : g.place? = some q) :
    t.endOf? p names = some q ∧
      ((∃ c, g = .file q c ∧ t.find? q = some (.file c)) ∨ g = .missing q ∧ t.find? q = none) := by
  fun_induction walk t p names with
  | case1 => cases h; cases hg
  | case2 p names ih =>
    rw [endOf?, if_pos rfl]
    exact ih h
  | case3 p names hdot ih =>
    rw [endOf?, if_neg hdot, if_pos rfl]
    exact ih h
  | case4 => cases h; cases hg
  | case5 => cases h
  | case6 p name names hdot hup hlong hfind ih =>
    rw [endOf?, if_neg hdot, if_neg hup, if_neg hlong, hfind]
    exact ih h
  | case7 p name hdot hup hlong c hfind =>
    cases h
    cases hg
    rw [endOf?, if_neg hdot, if_neg hup, if_neg hlong, hfind]
    exact ⟨rfl, .inl ⟨c, rfl, rfl⟩⟩
  | case8 => cases h
  | case9 p name hdot hup hlong hfind =>
    cases h
    cases hg
    rw [endOf?, if_neg hdot, if_neg hup, if_neg hlong, hfind]
    exact ⟨rfl, .inr ⟨rfl, rfl⟩⟩
  | case10 => cases h

/-- A path that can be read rests on the place of its file. -/
theorem exists_of_read {t : FileTree} {path : String} {c : Content} (h : t.read path = .ok c) :
    ∃ p, t.restsOn? path = some p ∧ t.find? p = some (.file c) := by
  unfold read resolve at h
  unfold restsOn?
  split at h
  · cases h
  · cases h
  · cases h
  · cases h
  · rename_i p d heq
    split at heq
    · cases heq
    · rename_i hlen
      split at h
      · cases h
      · cases h
        rw [if_neg hlen]
        obtain ⟨hend, ⟨c, hc, hfind⟩ | ⟨hc, -⟩⟩ := endOf?_of_walk heq rfl
        · cases hc
          exact ⟨p, hend, hfind⟩
        · cases hc

theorem toOption_placeToWrite (t : FileTree) (path : String) :
    (t.placeToWrite path).toOption =
      if endsInSlash path then none else (t.resolve path).toOption.bind Target.place? := by
  unfold placeToWrite
  split <;> split <;> simp_all [Except.toOption, Target.place?]

theorem find?_of_placeToWrite {t : FileTree} {path : String} {p : Place}
    (h : t.placeToWrite path = .ok p) : t.find? p ≠ some .directory := by
  have hp := toOption_placeToWrite t path
  rw [h] at hp
  split at hp
  · cases hp
  · unfold resolve at hp
    split at hp
    · cases hp
    · cases hw : t.walk (startOf path) (steps path) with
      | error f =>
        rw [hw] at hp
        cases hp
      | ok g =>
        rw [hw] at hp
        obtain ⟨-, ⟨c, -, hfind⟩ | ⟨-, hfind⟩⟩ := endOf?_of_walk hw hp.symm <;> simp [hfind]

/-! ## Growth -/

/-- The second tree is the first one with files written at the given places. -/
structure Grown (opened : List Place) (t t' : FileTree) : Prop where
  same : ∀ p, p ∉ opened → t'.find? p = t.find? p
  apart : ∀ p ∈ opened, t.find? p ≠ some .directory
  filled : ∀ p ∈ opened, ∃ c, t'.find? p = some (.file c)
  count : t.fileCount ≤ t'.fileCount

namespace Grown

variable {opened : List Place} {t t' : FileTree}

theorem refl (t : FileTree) : Grown [] t t where
  same := fun _ _ => rfl
  apart := fun _ hp => nomatch hp
  filled := fun _ hp => nomatch hp
  count := Nat.le_refl _

theorem write (h : Grown opened t t') {p : Place} (hp : t'.find? p ≠ some .directory) (s : String) :
    Grown (opened ++ [p]) t (t'.write p s) where
  same := by
    intro q hq
    rw [List.mem_append, List.mem_singleton, not_or] at hq
    rw [find?_write hp, if_neg hq.2]
    exact h.same q hq.1
  apart := by
    intro q hq
    by_cases ho : q ∈ opened
    · exact h.apart q ho
    · obtain rfl : q = p := by simpa [ho] using hq
      rwa [← h.same q ho]
  filled := by
    intro q hq
    rw [find?_write hp]
    split
    · exact ⟨_, rfl⟩
    · rename_i hne
      exact h.filled q (by simpa [hne] using hq)
  count := Nat.le_trans h.count (fileCount_le_write t' p s)

/-- A file that has been opened can be written without a new place. -/
theorem rewrite (h : Grown opened t t') {p : Place} (hp : p ∈ opened) (s : String) :
    Grown opened t (t'.write p s) := by
  have hd : t'.find? p ≠ some .directory := by
    obtain ⟨c, hc⟩ := h.filled p hp
    simp [hc]
  have hw := h.write hd s
  have hmem : ∀ q, q ∈ opened ++ [p] ↔ q ∈ opened := by
    intro q
    rw [List.mem_append, List.mem_singleton]
    exact ⟨fun hq => hq.elim id (fun e => e ▸ hp), .inl⟩
  exact
    { same := fun q hq => hw.same q (fun hm => hq ((hmem q).mp hm))
      apart := h.apart
      filled := fun q hq => hw.filled q ((hmem q).mpr hq)
      count := hw.count }

/-- A walk goes as before, or it rests on a place that was written and ends there as a walk would
that can only make or replace a file. -/
theorem walk (h : Grown opened t t') (p : Place) (names : List String) :
    t'.walk p names = t.walk p names ∨
      (∃ q ∈ opened, t.endOf? p names = some q) ∧
        (t'.walk p names).toOption.bind Target.place? =
          (t.walk p names).toOption.bind Target.place? := by
  induction names generalizing p with
  | nil => exact .inl rfl
  | cons name names ih =>
    unfold FileTree.walk endOf?
    by_cases hdot : name = "."
    · simpa only [if_pos hdot] using ih p
    by_cases hup : name = ".."
    · simpa only [if_neg hdot, if_pos hup] using ih p.up
    by_cases hlong : maxNameBytes < name.utf8ByteSize
    · exact .inl (by simp only [if_neg hdot, if_neg hup, if_pos hlong])
    simp only [if_neg hdot, if_neg hup, if_neg hlong]
    by_cases ho : name :: p ∈ opened
    · obtain ⟨c', hc'⟩ := h.filled _ ho
      rw [hc']
      cases hfind : t.find? (name :: p) with
      | none =>
        refine .inr ⟨⟨_, ho, rfl⟩, ?_⟩
        dsimp only
        split <;> rfl
      | some e =>
        cases e with
        | directory => exact absurd hfind (h.apart _ ho)
        | file c =>
          dsimp only
          split
          · exact .inr ⟨⟨_, ho, rfl⟩, rfl⟩
          · exact .inl rfl
    · rw [h.same _ ho]
      cases hfind : t.find? (name :: p) with
      | none => exact .inl rfl
      | some e =>
        cases e with
        | directory => exact ih (name :: p)
        | file c => exact .inl rfl

theorem resolve (h : Grown opened t t') (path : String) :
    t'.resolve path = t.resolve path ∨
      (∃ q ∈ opened, t.restsOn? path = some q) ∧
        (t'.resolve path).toOption.bind Target.place? =
          (t.resolve path).toOption.bind Target.place? := by
  unfold FileTree.resolve restsOn?
  by_cases hlen : maxPathBytes < path.utf8ByteSize
  · exact .inl (by simp only [if_pos hlen])
  · simpa only [if_neg hlen] using h.walk (startOf path) (steps path)

/-- What does not rest on a place that was written reads as before. -/
theorem read (h : Grown opened t t') {path : String}
    (hpath : ∀ p, t.restsOn? path = some p → p ∉ opened) : t'.read path = t.read path := by
  obtain he | ⟨⟨q, hq, hrest⟩, -⟩ := h.resolve path
  · unfold FileTree.read
    rw [he]
  · exact absurd hq (hpath q hrest)

/-- The same paths can be opened for writing, at the same places. -/
theorem placeToWrite (h : Grown opened t t') (path : String) :
    (t'.placeToWrite path).toOption = (t.placeToWrite path).toOption := by
  rw [toOption_placeToWrite, toOption_placeToWrite]
  obtain he | ⟨-, he⟩ := h.resolve path <;> rw [he]

end Grown

end MatrixCalc.FileTree
