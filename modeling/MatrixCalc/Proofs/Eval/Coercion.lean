import MatrixCalc.Eval

/-!
# Evaluation by coercions

Operations read their operands in two steps: checks of kinds and lengths that name a fault, and behind
them coercions and constructions that have failures of their own. Here evaluation is written with
both steps, so that a coercion or a construction that fails behind its check would stop it with
something that is no fault (`Stop`). It never does: evaluation by coercions is evaluation
(`walk_eq`), for every tree and every store.

1. `oddKind?_eq_find?` and `scalars_eq`: the checks find the first member of a wrong kind.
2. `numbersOf_eq`, `rowsOf_eq`, `matrixOfRows_eq`: behind the checks nothing fails.
3. So each operation by coercions is the operation on values (`binary_eq`, `arrayOf_eq`,
   `matrixOf_eq`, `determinantOf_eq`), and `walk_eq` is an induction over trees.
-/

namespace MatrixCalc

/-- What stops an evaluation by coercions: a fault, or a failed coercion or construction that no check
came before. -/
inductive Stop where
  | fault (f : Fault)
  | mistaken (m : Value.Mistaken)
  | shape (f : ShapeFault)
deriving DecidableEq, Repr

namespace Coercion

/-! ## Operations -/

/-- An operation on two scalars or two matrices. A coercion that fails would be reported as an operand
that is not supported. -/
def binary (op : Operation) (numbers : Float → Float → Float)
    (matrices : Matrix → Matrix → Except ShapeFault Matrix) (v w : Value) : Except Stop Value :=
  if v.kind ≠ w.kind then .error (.fault (.kindsDiffer op v.kind w.kind))
  else
    match v.kind with
    | .scalar =>
      match v.asScalar, w.asScalar with
      | .ok x, .ok y => .ok (.scalar (numbers x y))
      | .error m, _ => .error (.fault (.unsupported op m.found))
      | _, .error m => .error (.fault (.unsupported op m.found))
    | .matrix =>
      match v.asMatrix, w.asMatrix with
      | .ok a, .ok b =>
        match matrices a b with
        | .ok c => .ok (.matrix c)
        | .error f => .error (.fault (.shape op f))
      | .error m, _ => .error (.fault (.unsupported op m.found))
      | _, .error m => .error (.fault (.unsupported op m.found))
    | k => .error (.fault (.unsupported op k))

/-- The determinant of what can be taken for a matrix. -/
def determinantOf (v : Value) : Except Stop Value :=
  match v.asMatrix with
  | .error _ => .error (.fault (.notAMatrix v.kind))
  | .ok m =>
    match m.determinant with
    | .ok x => .ok (.scalar x)
    | .error f => .error (.fault (.shape .determinant f))

/-- The members as numbers. -/
def numbersOf : List Value → Except Stop (List Float)
  | [] => .ok []
  | v :: vs =>
    match v.asScalar with
    | .ok x => (numbersOf vs).map (x :: ·)
    | .error m => .error (.mistaken m)

/-- The members as rows. -/
def rowsOf : List Value → Except Stop (List (List Float))
  | [] => .ok []
  | .list xs :: vs => (rowsOf vs).map (xs :: ·)
  | v :: _ => .error (.mistaken ⟨.list, v.kind⟩)

/-- The matrix of rows, which are checked to have one length before it is built. -/
def matrixOfRows (rows : List (List Float)) : Except Stop Value :=
  if rows.any fun row => row.length != (rows.headD []).length then
    .error (.fault (.raggedRows (rows.map List.length)))
  else
    match Matrix.ofRows rows with
    | .ok m => .ok (.matrix m)
    | .error f => .error (.shape f)

/-- The list of members, which are checked to be scalars before they are taken for numbers. -/
def arrayOf (vs : List Value) : Except Stop Value :=
  if vs.isEmpty then .ok (.matrix .empty)
  else
    match vs.find? (·.kind != .scalar) with
    | some v => .error (.fault (.listMember v.kind))
    | none => (numbersOf vs).map .list

/-- The matrix of members, which are checked to be of one kind before they are taken for it. -/
def matrixOf : List Value → Except Stop Value
  | [] => .ok (.matrix .empty)
  | v :: vs =>
    match vs.find? (·.kind != v.kind) with
    | some w => .error (.fault (.mixedMembers v.kind w.kind))
    | none =>
      match v.kind with
      | .scalar => (numbersOf (v :: vs)).map fun xs => .matrix (.ofRow xs)
      | .list => (rowsOf (v :: vs)).bind matrixOfRows
      | k => .error (.fault (.matrixMember k))

theorem binary_matrix (op : Operation) (numbers : Float → Float → Float)
    (matrices : Matrix → Matrix → Except ShapeFault Matrix) (a b : Matrix) :
    binary op numbers matrices (.matrix a) (.matrix b) =
      match matrices a b with
      | .ok c => .ok (.matrix c)
      | .error f => .error (.fault (.shape op f)) := rfl

theorem sum_eq (v w : Value) :
    binary .sum (· + ·) Matrix.add v w = (v.sum w).mapError .fault := by
  cases v with
  | matrix a =>
    cases w with
    | matrix b =>
      rw [binary_matrix]
      unfold Value.sum
      dsimp only
      cases a.add b with
      | ok c => rfl
      | error f => rfl
    | _ => rfl
  | _ => cases w <;> rfl

theorem subtract_eq (v w : Value) :
    binary .subtract (· - ·) (fun a b => a.add b.negate) v w = (v.subtract w).mapError .fault := by
  cases v with
  | matrix a =>
    cases w with
    | matrix b =>
      rw [binary_matrix]
      unfold Value.subtract
      dsimp only
      cases a.add b.negate with
      | ok c => rfl
      | error f => rfl
    | _ => rfl
  | _ => cases w <;> rfl

theorem determinantOf_eq (v : Value) : determinantOf v = v.determinant.mapError .fault := by
  cases v with
  | matrix m =>
    unfold determinantOf Value.determinant
    dsimp only [Value.asMatrix]
    cases m.determinant with
    | ok x => rfl
    | error f => rfl
  | _ => rfl

/-! ## Members -/

theorem oddKind?_eq_find? (k : Kind) (vs : List Value) :
    Value.oddKind? k vs = (vs.find? (·.kind != k)).map Value.kind := by
  induction vs with
  | nil => rfl
  | cons v vs ih =>
    unfold Value.oddKind?
    rw [List.find?_cons]
    by_cases h : v.kind = k
    · rw [if_pos h, ih, bne_eq_false_iff_eq.2 h]
    · rw [if_neg h, bne_iff_ne.2 h]
      rfl

theorem kind_eq_of_find? {k : Kind} {vs : List Value} (h : vs.find? (·.kind != k) = none) :
    ∀ v ∈ vs, v.kind = k := by
  intro v hv
  simpa using List.find?_eq_none.1 h v hv

/-- Members that are all scalars are taken for numbers. -/
theorem numbersOf_eq {vs : List Value} (h : ∀ v ∈ vs, v.kind = .scalar) :
    numbersOf vs = .ok (vs.filterMap Value.number?) := by
  induction vs with
  | nil => rfl
  | cons v vs ih =>
    rw [List.forall_mem_cons] at h
    obtain ⟨hv, hvs⟩ := h
    cases v with
    | scalar x =>
      show (numbersOf vs).map (x :: ·) = _
      rw [ih hvs]
      rfl
    | _ => cases hv

/-- Members that are all lists are taken for rows. -/
theorem rowsOf_eq {vs : List Value} (h : ∀ v ∈ vs, v.kind = .list) :
    rowsOf vs = .ok (vs.filterMap Value.items?) := by
  induction vs with
  | nil => rfl
  | cons v vs ih =>
    rw [List.forall_mem_cons] at h
    obtain ⟨hv, hvs⟩ := h
    cases v with
    | list xs =>
      show (rowsOf vs).map (xs :: ·) = _
      rw [ih hvs]
      rfl
    | _ => cases hv

theorem mapError_map {ε ε' α β : Type} (r : Except ε α) (f : ε → ε') (g : α → β) :
    (r.map g).mapError f = (r.mapError f).map g := by
  cases r with
  | ok a => rfl
  | error e => rfl

/-- The check of members for scalars and the reading of them as numbers agree. -/
theorem scalars_eq (vs : List Value) : (Value.scalars vs).mapError Stop.fault =
    match vs.find? (·.kind != .scalar) with
    | some v => .error (.fault (.listMember v.kind))
    | none => numbersOf vs := by
  induction vs with
  | nil => rfl
  | cons v vs ih =>
    cases v with
    | scalar x =>
      have hfind : (Value.scalar x :: vs).find? (·.kind != .scalar) =
          vs.find? (·.kind != .scalar) := rfl
      rw [Value.scalars, mapError_map, ih, hfind]
      split
      · rfl
      · rfl
    | _ => rfl

theorem arrayOf_eq (vs : List Value) : arrayOf vs = (Value.ofArray vs).mapError .fault := by
  cases vs with
  | nil => rfl
  | cons v vs =>
    show _ = ((Value.scalars (v :: vs)).map Value.list).mapError Stop.fault
    rw [mapError_map, scalars_eq]
    unfold arrayOf
    rw [List.isEmpty_cons, if_neg Bool.false_ne_true]
    split
    · rfl
    · rfl

/-- Rows that pass the check make a matrix. -/
theorem matrixOfRows_eq (rows : List (List Float)) :
    matrixOfRows rows = (Value.ofRows rows).mapError .fault := by
  cases rows with
  | nil => rfl
  | cons row rows =>
    have hany : ((row :: rows).any fun r => r.length != ((row :: rows).headD []).length) = true ↔
        ¬ ∀ r ∈ row :: rows, r.length = row.length := by
      simp [List.any_eq_true]
    unfold matrixOfRows Value.ofRows Matrix.ofRows
    by_cases h : ∀ r ∈ row :: rows, r.length = row.length
    · rw [if_neg fun hc => hany.1 hc h]
      dsimp only
      rw [dif_pos h]
      rfl
    · rw [if_pos (hany.2 h)]
      dsimp only
      rw [dif_neg h]
      rfl

theorem matrixOf_eq (vs : List Value) : matrixOf vs = (Value.ofMatrix vs).mapError .fault := by
  cases vs with
  | nil => rfl
  | cons v vs =>
    unfold matrixOf Value.ofMatrix
    dsimp only
    rw [oddKind?_eq_find?]
    cases hodd : vs.find? (·.kind != v.kind) with
    | some w => rfl
    | none =>
      have hkind : ∀ w ∈ v :: vs, w.kind = v.kind :=
        List.forall_mem_cons.2 ⟨rfl, kind_eq_of_find? hodd⟩
      dsimp only [Option.map_none]
      cases hk : v.kind with
      | scalar =>
        dsimp only
        rw [numbersOf_eq (hk ▸ hkind)]
        rfl
      | list =>
        dsimp only
        rw [rowsOf_eq (hk ▸ hkind)]
        exact matrixOfRows_eq _
      | matrix => rfl
      | string => rfl

end Coercion

namespace Tree

/-- A computation on a store that can stop. -/
abbrev Walk := ExceptT Stop (StateM Store)

/-- The computation that has a result and leaves the store alone. -/
def ofResult {α : Type} (r : Except Stop α) : Walk α := ExceptT.mk (pure r)

mutual
/-- Evaluation by coercions. -/
def walk : Tree → Walk Value
  | .number text => ofResult ((Value.ofNumeral text).mapError .fault)
  | .variable name => do ofResult (((← get).lookup name).mapError .fault)
  | .signed sign t => do ofResult (((← walk t).signed sign).mapError .fault)
  | .group t => walk t
  | .sum l r => do
    let a ← walk l
    let b ← walk r
    ofResult (Coercion.binary .sum (· + ·) Matrix.add a b)
  | .subtract l r => do
    let a ← walk l
    let b ← walk r
    ofResult (Coercion.binary .subtract (· - ·) (fun m n => m.add n.negate) a b)
  | .array ts => do ofResult (Coercion.arrayOf (← walkAll ts))
  | .matrix ts => do ofResult (Coercion.matrixOf (← walkAll ts))
  | .determinant t => do ofResult (Coercion.determinantOf (← walk t))
  | .assign name t => do
    let v ← walk t
    modify (·.assign name v)
    return v
  | .print t => do return .text (← walk t).render
  | .foreign type => throw (.fault (.foreignTree type))
/-- Evaluation of trees in order. -/
def walkAll : List Tree → Walk (List Value)
  | [] => return []
  | t :: ts => do
    let v ← walk t
    let vs ← walkAll ts
    return v :: vs
end

/-- The outcome of evaluation as that of a walk: a fault is what stops. -/
def lift {α : Type} (o : Outcome α) : Except Stop α × Store := (o.1.mapError .fault, o.2)

theorem lift_andThen {α β : Type} {x : Walk α} {f : α → Walk β} {s : Store} {o : Outcome α}
    {g : α → Store → Outcome β} (hx : x.run.run s = lift o)
    (hf : ∀ a s', (f a).run.run s' = lift (g a s')) : (x >>= f).run.run s = lift (o.andThen g) := by
  have hbind : (x >>= f).run.run s =
      match x.run.run s with
      | (.ok a, s') => (f a).run.run s'
      | (.error e, s') => (.error e, s') := by
    show (match x.run.run s with
      | (r, s') => (ExceptT.bindCont f r).run s') = _
    generalize x.run.run s = y
    obtain ⟨r, s'⟩ := y
    cases r with
    | ok a => rfl
    | error e => rfl
  rw [hbind, hx]
  obtain ⟨r, s'⟩ := o
  cases r with
  | ok a => exact hf a s'
  | error e => rfl

theorem lift_apply {α β : Type} {x : Walk α} {f : α → Except Stop β} {s : Store} {o : Outcome α}
    {g : α → Except Fault β} (hx : x.run.run s = lift o)
    (hf : ∀ a, f a = (g a).mapError .fault) :
    (x >>= fun a => ofResult (f a)).run.run s = lift (o.apply g) := by
  refine lift_andThen hx fun a s' => ?_
  show (f a, s') = _
  rw [hf a]
  rfl

mutual
theorem walk_eq : ∀ (t : Tree) (s : Store), (walk t).run.run s = lift (t.eval s)
  | .number _, _ => rfl
  | .variable _, _ => rfl
  | .signed _ t, s => lift_apply (walk_eq t s) fun _ => rfl
  | .group t, s => walk_eq t s
  | .sum l r, s => lift_andThen (walk_eq l s) fun a s' =>
      lift_apply (walk_eq r s') (Coercion.sum_eq a)
  | .subtract l r, s => lift_andThen (walk_eq l s) fun a s' =>
      lift_apply (walk_eq r s') (Coercion.subtract_eq a)
  | .array ts, s => lift_apply (walkAll_eq ts s) Coercion.arrayOf_eq
  | .matrix ts, s => lift_apply (walkAll_eq ts s) Coercion.matrixOf_eq
  | .determinant t, s => lift_apply (walk_eq t s) Coercion.determinantOf_eq
  | .assign _ t, s => lift_andThen (walk_eq t s) fun _ _ => rfl
  | .print t, s => lift_andThen (walk_eq t s) fun _ _ => rfl
  | .foreign _, _ => rfl
theorem walkAll_eq : ∀ (ts : List Tree) (s : Store), (walkAll ts).run.run s = lift (evalAll ts s)
  | [], _ => rfl
  | t :: ts, s => lift_andThen (walk_eq t s) fun _ s' =>
      lift_andThen (walkAll_eq ts s') fun _ _ => rfl
end

end Tree

end MatrixCalc
