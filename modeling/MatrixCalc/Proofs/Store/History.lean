import Mathlib.Data.List.DropRight
import MatrixCalc.Proofs.Eval.Effects

/-!
# The history of a store

What a store holds follows from its live assignments: those since it was last cleared, where the
bindings that it had at the start count as the first ones (`Request.live`).

1. A request adds one assignment to the live ones, or ends them all, or changes neither them nor the
   store. So after any requests the store is that of its live assignments (`answerAll_eq_ofList`).
2. The store of a list of assignments has their names, in the order in which they first stand there
   (`listsFirst_ofList`), and a name has the value of its last assignment
   (`get?_ofList_eq_some_iff`). Both are inductions from the last assignment backwards.
-/

namespace MatrixCalc

namespace Store

/-! ## Live assignments -/

namespace Request

/-- The name and the value that the request assigns. -/
def assignment? : Request → Option (String × Value)
  | .assign name v => some (name, v)
  | .lookup _ | .contains _ | .names | .clear => none

/-- The request clears the store. -/
def isClear : Request → Bool
  | .clear => true
  | .assign _ _ | .lookup _ | .contains _ | .names => false

/-- The assignments since the store was last cleared. -/
def live (requests : List Request) : List (String × Value) :=
  (requests.rtakeWhile (!·.isClear)).filterMap assignment?

theorem live_clear (requests : List Request) : live (requests ++ [.clear]) = [] := by
  unfold live
  rw [List.rtakeWhile_concat_neg _ _ _ (by simp [isClear]), List.filterMap_nil]

theorem live_of_not_clear (requests : List Request) {r : Request} (h : r.isClear = false) :
    live (requests ++ [r]) = live requests ++ r.assignment?.toList := by
  unfold live
  rw [List.rtakeWhile_concat_pos _ _ _ (by simp [h]), List.filterMap_append]
  cases r <;> rfl

end Request

/-- The requests that assign the bindings of the store in order. -/
def assignments (s : Store) : List Request := s.bindings.map fun b => .assign b.1 b.2

theorem live_assignments (s : Store) : Request.live s.assignments = s.bindings := by
  have hall : s.assignments.rtakeWhile (!·.isClear) = s.assignments := by
    rw [List.rtakeWhile_eq_self_iff, assignments, List.forall_mem_map]
    exact fun _ _ => rfl
  unfold Request.live
  rw [hall, assignments, List.filterMap_map]
  exact List.filterMap_some

/-! ## Stores of assignments -/

theorem ofList_concat (bs : List (String × Value)) (b : String × Value) :
    ofList (bs ++ [b]) = (ofList bs).assign b.1 b.2 := by
  simp [ofList]

theorem bindIn_of_not_mem {name : String} {bs : List (String × Value)} (v : Value)
    (h : name ∉ bs.map (·.1)) : bindIn name v bs = bs ++ [(name, v)] := by
  induction bs with
  | nil => rfl
  | cons b bs ih =>
    rw [List.map_cons, List.mem_cons, not_or] at h
    rw [bindIn, if_neg (Ne.symm h.1), ih h.2, List.cons_append]

/-- Bindings with distinct names are those of their store. -/
theorem bindings_ofList {bs : List (String × Value)} (h : (bs.map (·.1)).Nodup) :
    (ofList bs).bindings = bs := by
  induction bs using List.reverseRecOn with
  | nil => rfl
  | append_singleton bs b ih =>
    rw [List.map_append, List.nodup_append] at h
    have hb : b.1 ∉ bs.map (·.1) := fun hc => h.2.2 b.1 hc b.1 (by simp) rfl
    rw [ofList_concat, assign]
    dsimp only
    rw [ih h.1, bindIn_of_not_mem b.2 hb]

theorem ofList_bindings (s : Store) : ofList s.bindings = s :=
  Store.ext (bindings_ofList s.distinct)

/-- The names are those of a list, in the order in which they first stand there. -/
structure ListsFirst (all names : List String) : Prop where
  mem : ∀ x, x ∈ names ↔ x ∈ all
  order : names.Pairwise fun x y => all.idxOf x < all.idxOf y

theorem ListsFirst.concat {all names : List String} (h : ListsFirst all names) (x : String) :
    ListsFirst (all ++ [x]) (if x ∈ names then names else names ++ [x]) := by
  have hidx : ∀ y ∈ names, (all ++ [x]).idxOf y = all.idxOf y := fun y hy =>
    List.idxOf_append_of_mem ((h.mem y).1 hy)
  have horder : names.Pairwise fun y z => (all ++ [x]).idxOf y < (all ++ [x]).idxOf z :=
    h.order.imp_of_mem fun hy hz hlt => by rwa [hidx _ hy, hidx _ hz]
  split_ifs with hx
  · refine ⟨fun y => ?_, horder⟩
    rw [List.mem_append, List.mem_singleton, h.mem]
    refine ⟨Or.inl, ?_⟩
    rintro (hy | rfl)
    · exact hy
    · exact (h.mem y).1 hx
  · refine ⟨fun y => by simp [h.mem], List.pairwise_append.2 ⟨horder, List.pairwise_singleton _ _, ?_⟩⟩
    intro y hy z hz
    obtain rfl := List.mem_singleton.1 hz
    rw [hidx y hy, List.idxOf_append_of_notMem fun hc => hx ((h.mem z).2 hc)]
    have hlt := List.idxOf_lt_length_iff.2 ((h.mem y).1 hy)
    omega

theorem listsFirst_ofList (bs : List (String × Value)) :
    ListsFirst (bs.map (·.1)) (ofList bs).names := by
  induction bs using List.reverseRecOn with
  | nil => exact ⟨fun _ => Iff.rfl, List.Pairwise.nil⟩
  | append_singleton bs b ih =>
    rw [ofList_concat, names_assign, List.map_append]
    exact ih.concat b.1

theorem get?_ofList (bs : List (String × Value)) (x : String) :
    (ofList bs).get? x = bs.reverse.lookup x := by
  induction bs using List.reverseRecOn with
  | nil => rfl
  | append_singleton bs b ih =>
    rw [ofList_concat, get?_assign, ih, List.reverse_concat, List.lookup_cons]
    by_cases hx : x = b.1
    · rw [if_pos hx, beq_iff_eq.2 hx]
    · rw [if_neg hx, beq_eq_false_iff_ne.2 hx]

/-- A name has the value of its last assignment. -/
theorem get?_ofList_eq_some_iff {bs : List (String × Value)} {x : String} {v : Value} :
    (ofList bs).get? x = some v ↔
      ∃ before after, bs = before ++ (x, v) :: after ∧ x ∉ after.map (·.1) := by
  rw [get?_ofList, List.lookup_eq_some_iff]
  constructor
  · rintro ⟨later, earlier, hbs, hlater⟩
    rw [← List.lookup_eq_none_iff, lookup_eq_none_iff_not_mem] at hlater
    refine ⟨earlier.reverse, later.reverse, ?_, ?_⟩
    · rw [← List.reverse_reverse bs, hbs]
      simp
    · rwa [List.map_reverse, List.mem_reverse]
  · rintro ⟨before, after, rfl, hafter⟩
    refine ⟨after.reverse, before.reverse, by simp, ?_⟩
    rwa [← List.lookup_eq_none_iff, lookup_eq_none_iff_not_mem, List.map_reverse, List.mem_reverse]

/-! ## Replies -/

section Replies

variable {s : Store} {x : String}

theorem lookup_eq_ok_iff {v : Value} : s.lookup x = .ok v ↔ s.get? x = some v := by
  unfold lookup
  cases s.get? x with
  | none => simp
  | some w => simp

theorem lookup_eq_error_iff {f : Fault} :
    s.lookup x = .error f ↔ f = .undefinedVariable x ∧ x ∉ s.names := by
  rw [← get?_eq_none_iff]
  unfold lookup
  cases s.get? x with
  | none => simp [eq_comm]
  | some v => simp

theorem contains_iff : s.contains x = true ↔ ∃ v, s.lookup x = .ok v := by
  simp only [lookup_eq_ok_iff]
  exact Option.isSome_iff_exists

end Replies

/-! ## Requests in order -/

/-- The store after requests, whether they fail or not. -/
def answerAll (s : Store) (requests : List Request) : Store :=
  requests.foldl (fun s r => (s.answer r).2) s

/-- One request does to the store what it does to the live assignments. -/
theorem answer_ofList_live (history : List Request) (r : Request) :
    ((ofList (Request.live history)).answer r).2 = ofList (Request.live (history ++ [r])) := by
  cases r with
  | assign name v =>
    rw [Request.live_of_not_clear _ rfl]
    exact (ofList_concat _ (name, v)).symm
  | clear =>
    rw [Request.live_clear]
    rfl
  | _ =>
    rw [Request.live_of_not_clear _ rfl, Request.assignment?, Option.toList_none, List.append_nil]
    rfl

theorem answerAll_eq_ofList (start : Store) (requests : List Request) :
    start.answerAll requests = ofList (Request.live (start.assignments ++ requests)) := by
  induction requests using List.reverseRecOn with
  | nil => rw [List.append_nil, live_assignments, ofList_bindings, answerAll, List.foldl_nil]
  | append_singleton requests r ih =>
    rw [answerAll, List.foldl_concat, ← answerAll, ih, answer_ofList_live, List.append_assoc]

/-- **History.** After any requests to any store, with those that bind what it held at the start in
front: the names are the ones assigned since the store was last cleared, each once and in the order of
their first assignments since then; a name has the value of its last assignment since then, and
without one it is undefined; it is contained exactly if it has a value; and none of these questions
changes the store. -/
theorem answer_of_history (start : Store) (requests : List Request) :
    let s := start.answerAll requests
    let live := Request.live (start.assignments ++ requests)
    let assigned := live.map (·.1)
    (∃ names, s.answer .names = (.names names, s) ∧ names.Nodup ∧ (∀ x, x ∈ names ↔ x ∈ assigned) ∧
      names.Pairwise fun x y => assigned.idxOf x < assigned.idxOf y) ∧
    ∀ x, ∃ r b, s.answer (.lookup x) = (.value r, s) ∧ s.answer (.contains x) = (.bound b, s) ∧
      (∀ v, r = .ok v ↔ ∃ before after, live = before ++ (x, v) :: after ∧ x ∉ after.map (·.1)) ∧
      (∀ f, r = .error f ↔ f = .undefinedVariable x ∧ x ∉ assigned) ∧
      (b = true ↔ ∃ v, r = .ok v) := by
  intro s live assigned
  have hs : s = ofList live := answerAll_eq_ofList start requests
  have hnames : ListsFirst assigned s.names := hs ▸ listsFirst_ofList live
  refine ⟨⟨s.names, rfl, s.distinct, hnames.mem, hnames.order⟩, ?_⟩
  intro x
  refine ⟨s.lookup x, s.contains x, rfl, rfl, ?_, ?_, contains_iff⟩
  · intro v
    rw [lookup_eq_ok_iff, hs, get?_ofList_eq_some_iff]
  · intro f
    rw [lookup_eq_error_iff, hnames.mem]

end Store

end MatrixCalc
