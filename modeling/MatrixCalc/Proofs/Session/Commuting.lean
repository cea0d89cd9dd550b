import MatrixCalc.Proofs.Eval.Agreement
import MatrixCalc.Proofs.Session.Reachable

/-!
# Independent statements commute

Statements are independent if none assigns a name that another one reads or assigns. Run one by one,
each then goes as it would alone in the session before all of them, so their order does not matter
(`runEach_of_perm`).

1. `runEach` runs statements in order and goes on behind those that fail.
2. `Apart` makes a statement blind to another one: behind `t`, the statement `u` has the result that it
   had before, and leaves its own targets as before (`sameOn_run_of_apart`).
3. `runsApart` describes a whole run without its order: each result is that of the statement alone, and
   each name is as the statement that assigns it leaves it, or as it was. Two orders of the same
   statements have the same description.
-/

namespace MatrixCalc

namespace Tree

/-- The first tree assigns to nothing that the second reads or assigns to. -/
def Apart (t u : Tree) : Prop := ∀ x ∈ t.targets, x ∉ u.reads ++ u.targets

instance (t u : Tree) : Decidable (t.Apart u) :=
  inferInstanceAs (Decidable (∀ x ∈ t.targets, x ∉ u.reads ++ u.targets))

/-- None of the trees assigns to a name that another one reads or assigns to. -/
def Independent (ts : List Tree) : Prop := ts.Pairwise fun t u => t.Apart u ∧ u.Apart t

instance (ts : List Tree) : Decidable (Independent ts) :=
  inferInstanceAs (Decidable (ts.Pairwise fun t u => t.Apart u ∧ u.Apart t))

theorem Independent.of_perm {ts us : List Tree} (h : Independent ts) (hperm : us.Perm ts) :
    Independent us :=
  (hperm.pairwise_iff fun h => ⟨h.2, h.1⟩).2 h

end Tree

namespace Session

/-- Runs statements in order, also behind one that fails. -/
def runEach (s : Session) : List Tree → List (Except Fault Value) × Session
  | [] => ([], s)
  | t :: ts =>
    let (r, s) := s.run t
    let (rs, s) := s.runEach ts
    (r :: rs, s)

theorem result_run (s : Session) (t : Tree) : (s.run t).1 = (t.eval s.store).1 := by
  unfold run
  split
  · rename_i heq
    rw [heq]
  · rename_i heq
    rw [heq]

theorem changes_run (s : Session) (t : Tree) :
    s.store.Changes t.targets (s.run t).2.store := by
  rw [store_run]
  exact Tree.eval_changes t s.store

/-- A statement goes behind another one as before it, if that one assigns to nothing that it reads or
assigns to. -/
theorem sameOn_run_of_apart {t u : Tree} (h : t.Apart u) (s : Session) :
    ((s.run t).2.run u).1 = (s.run u).1 ∧
      ∀ x ∈ u.targets, ((s.run t).2.run u).2.store.get? x = (s.run u).2.store.get? x := by
  have hagree : Store.AgreeOn (u.reads ++ u.targets) (s.run t).2.store s.store :=
    (changes_run s t).agreeOn fun x hx ht => h x ht hx
  have hsame := Tree.eval_sameOn u (List.subset_append_left _ _) hagree
  rw [result_run _ u, result_run s u, store_run _ u, store_run s u]
  exact ⟨hsame.result, fun x hx => hsame.store x (List.mem_append_right _ hx)⟩

/-- The statements have the results that each has alone in the session, and leave it as each alone
leaves the names that it assigns to. -/
structure RunsApart (s : Session) (ts : List Tree) : Prop where
  results : (s.runEach ts).1 = ts.map fun t => (s.run t).1
  assigned : ∀ t ∈ ts, ∀ x ∈ t.targets,
    (s.runEach ts).2.store.get? x = (s.run t).2.store.get? x
  kept : ∀ x, (∀ t ∈ ts, x ∉ t.targets) → (s.runEach ts).2.store.get? x = s.store.get? x

theorem runsApart (s : Session) {ts : List Tree} (h : Tree.Independent ts) : s.RunsApart ts := by
  induction ts generalizing s with
  | nil => exact ⟨rfl, nofun, fun _ _ => rfl⟩
  | cons t ts ih =>
    obtain ⟨hapart, hrest⟩ := List.pairwise_cons.1 h
    -- behind `t` the others go as they go before it, and none of them touches its targets
    have ht := changes_run s t
    have hts := ih (s.run t).2 hrest
    have hsame := fun u hu => sameOn_run_of_apart (hapart u hu).1 s
    constructor
    · show (s.run t).1 :: ((s.run t).2.runEach ts).1 = _
      rw [hts.results, List.map_cons, List.map_congr_left fun u hu => (hsame u hu).1]
    · intro u hu x hx
      rcases List.mem_cons.1 hu with rfl | hu
      · exact hts.kept x fun v hv hxv =>
          (hapart v hv).1 x hx (List.mem_append_right _ hxv)
      · exact (hts.assigned u hu x hx).trans ((hsame u hu).2 x hx)
    · intro x hx
      rw [List.forall_mem_cons] at hx
      exact (hts.kept x hx.2).trans (ht.get? x hx.1)

/-- **Independent statements commute.** If no statement of a list assigns a name that another one reads
or assigns, then in every order of the list each has the result that it has alone in the session,
also behind statements that fail, and every order leaves each name with the same value or with none. -/
theorem runEach_of_perm (s : Session) {ts us : List Tree} (h : Tree.Independent ts)
    (hperm : us.Perm ts) :
    ((s.runEach ts).1 = ts.map fun t => (s.run t).1) ∧
    ((s.runEach us).1 = us.map fun t => (s.run t).1) ∧
    ∀ x, (s.runEach us).2.store.get? x = (s.runEach ts).2.store.get? x := by
  have hts := s.runsApart h
  have hus := s.runsApart (h.of_perm hperm)
  refine ⟨hts.results, hus.results, fun x => ?_⟩
  by_cases hx : ∃ t ∈ ts, x ∈ t.targets
  · obtain ⟨t, ht, hx⟩ := hx
    rw [hts.assigned t ht x hx, hus.assigned t (hperm.mem_iff.2 ht) x hx]
  · push Not at hx
    rw [hts.kept x hx, hus.kept x fun t ht => hx t (hperm.mem_iff.1 ht)]

theorem runEach_of_perm_reversed :
    let s := ofStore (.ofList [("a", .text "1"), ("b", .text "2")])
    let ts : List Tree := [.assign "x" (.variable "a"),
      .print (.sum (.variable "a") (.variable "b")),
      .assign "y" (.sum (.variable "y") (.variable "b")), .print (.variable "z")]
    Tree.Independent ts ∧ ts.reverse.Perm ts ∧
      ((s.runEach ts).1 = ts.map fun t => (s.run t).1) ∧
      ((s.runEach ts.reverse).1 = ts.reverse.map fun t => (s.run t).1) ∧
      ∀ x, (s.runEach ts.reverse).2.store.get? x = (s.runEach ts).2.store.get? x := by
  intro s ts
  have h : Tree.Independent ts := by decide +kernel
  exact ⟨h, ts.reverse_perm, s.runEach_of_perm h ts.reverse_perm⟩

end Session

end MatrixCalc
