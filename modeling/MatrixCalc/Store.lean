import MatrixCalc.Fault

/-!
# The store of variables

A store binds names to values and remembers the order in which the names first came. Assigning to a
name that is bound keeps its place. No name is bound twice. A store is driven by requests: it is
assigned to and cleared, and asked for values and names.
-/

namespace MatrixCalc

/-- The binding of a name changed in its place, or added at the end. -/
def bindIn (name : String) (v : Value) : List (String × Value) → List (String × Value)
  | [] => [(name, v)]
  | b :: bs => if b.1 = name then (name, v) :: bs else b :: bindIn name v bs

theorem names_bindIn (name : String) (v : Value) (bs : List (String × Value)) :
    (bindIn name v bs).map (·.1) =
      if name ∈ bs.map (·.1) then bs.map (·.1) else bs.map (·.1) ++ [name] := by
  induction bs with
  | nil => simp [bindIn]
  | cons b bs ih =>
    unfold bindIn
    by_cases h : b.1 = name
    · simp [h]
    · have hne : name ≠ b.1 := fun e => h e.symm
      rw [if_neg h, List.map_cons, ih, List.map_cons]
      by_cases hm : name ∈ bs.map (·.1)
      · rw [if_pos hm, if_pos (List.mem_cons_of_mem _ hm)]
      · rw [if_neg hm, if_neg (fun hc => (List.mem_cons.1 hc).elim hne hm), List.cons_append]

/-- Variables and their values, in the order in which the names first came. -/
@[ext] structure Store where
  bindings : List (String × Value)
  distinct : (bindings.map (·.1)).Nodup

namespace Store

/-- The store without variables. -/
def empty : Store := ⟨[], by simp⟩

/-- The names that are bound, in order. -/
def names (s : Store) : List String := s.bindings.map (·.1)

/-- Binds a name to a value. -/
def assign (s : Store) (name : String) (v : Value) : Store :=
  ⟨bindIn name v s.bindings, by
    rw [names_bindIn]
    split
    · exact s.distinct
    · rename_i h
      refine List.nodup_append.2 ⟨s.distinct, by simp, ?_⟩
      rintro a ha b hb rfl
      exact h (List.mem_singleton.1 hb ▸ ha)⟩

/-- The value of a name, if it is bound. -/
def get? (s : Store) (name : String) : Option Value := s.bindings.lookup name

/-- The value of a name. -/
def lookup (s : Store) (name : String) : Except Fault Value :=
  match s.get? name with
  | some v => .ok v
  | none => .error (.undefinedVariable name)

/-- The name is bound. -/
def contains (s : Store) (name : String) : Bool := (s.get? name).isSome

/-- The store after a list of assignments to the empty one. -/
def ofList (bs : List (String × Value)) : Store := bs.foldl (fun s b => s.assign b.1 b.2) empty

/-- The store without its variables. -/
def clear (_ : Store) : Store := empty

/-- What can be asked of a store. -/
inductive Request where
  | assign (name : String) (v : Value)
  | lookup (name : String)
  | contains (name : String)
  | names
  | clear

/-- What a store replies to a request. -/
inductive Reply where
  /-- The request is done. -/
  | done
  /-- The value of a name, or why it has none. -/
  | value (r : Except Fault Value)
  /-- Whether a name is bound. -/
  | bound (b : Bool)
  /-- The names that are bound. -/
  | names (ns : List String)

/-- The reply to a request, and the store behind it. -/
def answer (s : Store) : Request → Reply × Store
  | .assign name v => (.done, s.assign name v)
  | .lookup name => (.value (s.lookup name), s)
  | .contains name => (.bound (s.contains name), s)
  | .names => (.names s.names, s)
  | .clear => (.done, s.clear)

theorem names_assign (s : Store) (name : String) (v : Value) :
    (s.assign name v).names = if name ∈ s.names then s.names else s.names ++ [name] :=
  names_bindIn name v s.bindings

theorem lookup_bindIn (name x : String) (v : Value) (bs : List (String × Value)) :
    (bindIn name v bs).lookup x = if x = name then some v else bs.lookup x := by
  induction bs with
  | nil =>
    unfold bindIn
    rw [List.lookup_cons, List.lookup_nil]
    by_cases h : x = name
    · rw [beq_iff_eq.2 h, if_pos h]
    · rw [beq_eq_false_iff_ne.2 h, if_neg h]
  | cons b bs ih =>
    obtain ⟨y, w⟩ := b
    unfold bindIn
    by_cases hy : y = name
    · subst hy
      rw [if_pos rfl, List.lookup_cons, List.lookup_cons]
      by_cases hx : x = y
      · rw [beq_iff_eq.2 hx, if_pos hx]
      · rw [beq_eq_false_iff_ne.2 hx, if_neg hx]
    · rw [if_neg hy, List.lookup_cons, List.lookup_cons, ih]
      by_cases hx : x = y
      · rw [beq_iff_eq.2 hx]
        exact (if_neg fun h => hy (hx.symm.trans h)).symm
      · rw [beq_eq_false_iff_ne.2 hx]

theorem get?_assign (s : Store) (name x : String) (v : Value) :
    (s.assign name v).get? x = if x = name then some v else s.get? x :=
  lookup_bindIn name x v s.bindings

end Store

end MatrixCalc
