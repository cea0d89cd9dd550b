import Mathlib.Data.List.Basic
import MatrixCalc.Eval

/-!
# What evaluation does to the store

An evaluation may fail anywhere, in the middle of a list of members or between two operands, and what
was assigned before stays. Still its effect is bounded by the names that the tree assigns to:

1. `Store.Changes targets s s'` says that names stay and keep their order, that new ones come behind
   them, and that only the targets can have other values. It composes (`Changes.trans`).
2. `eval_changes` is an induction over trees, with `evalAll_changes` for their members.
3. A store that changes at no name is the same store (`Changes.eq`), so a tree without assignments
   leaves the store alone, whether it has a value or not (`eval_of_targets`).
-/

namespace MatrixCalc

/-! ## Changes of a store -/

theorem lookup_eq_none_iff_not_mem {name : String} {bs : List (String × Value)} :
    bs.lookup name = none ↔ name ∉ bs.map (·.1) := by
  rw [List.lookup_eq_none_iff]
  constructor
  · intro h hn
    obtain ⟨b, hb, rfl⟩ := List.mem_map.1 hn
    exact bne_iff_ne.1 (h b hb) rfl
  · intro h b hb
    refine bne_iff_ne.2 ?_
    rintro rfl
    exact h (List.mem_map_of_mem hb)

/-- Bindings are determined by their names in order and by the value of each name. -/
theorem bindings_ext {bs bs' : List (String × Value)} (hnodup : (bs.map (·.1)).Nodup)
    (hnames : bs.map (·.1) = bs'.map (·.1)) (h : ∀ x, bs.lookup x = bs'.lookup x) : bs = bs' := by
  induction bs generalizing bs' with
  | nil => exact (List.map_eq_nil_iff.1 hnames.symm).symm
  | cons b bs ih =>
    cases bs' with
    | nil => cases hnames
    | cons b' bs' =>
      obtain ⟨x, v⟩ := b
      obtain ⟨x', v'⟩ := b'
      obtain ⟨rfl, htail⟩ : x = x' ∧ bs.map (·.1) = bs'.map (·.1) := List.cons.inj hnames
      obtain ⟨hx, hnodup⟩ := List.nodup_cons.1 hnodup
      have hv : v = v' := by simpa [List.lookup_cons] using h x
      rw [hv, ih hnodup htail]
      intro y
      by_cases hy : y = x
      · rw [hy, lookup_eq_none_iff_not_mem.2 hx, lookup_eq_none_iff_not_mem.2 (htail ▸ hx)]
      · have hyx : (y == x) = false := beq_eq_false_iff_ne.2 hy
        simpa [List.lookup_cons, hyx] using h y

namespace Store

theorem get?_eq_none_iff {s : Store} {x : String} : s.get? x = none ↔ x ∉ s.names :=
  lookup_eq_none_iff_not_mem

theorem ext_get? {s s' : Store} (hnames : s.names = s'.names) (h : ∀ x, s.get? x = s'.get? x) :
    s = s' :=
  Store.ext (bindings_ext s.distinct hnames h)

/-- Names stay in their order and new ones come behind them; only the targets can have changed. -/
structure Changes (targets : List String) (s s' : Store) : Prop where
  names : s.names <+: s'.names
  get? : ∀ x, x ∉ targets → s'.get? x = s.get? x

namespace Changes

theorem refl (s : Store) : Changes [] s s := ⟨List.prefix_rfl, fun _ _ => rfl⟩

theorem trans {xs ys : List String} {s s' s'' : Store} (h : Changes xs s s')
    (h' : Changes ys s' s'') : Changes (xs ++ ys) s s'' := by
  refine ⟨h.names.trans h'.names, ?_⟩
  intro x hx
  rw [List.mem_append, not_or] at hx
  rw [h'.get? x hx.2, h.get? x hx.1]

theorem mono {xs ys : List String} {s s' : Store} (h : Changes xs s s') (hxy : xs ⊆ ys) :
    Changes ys s s' :=
  ⟨h.names, fun x hx => h.get? x fun hc => hx (hxy hc)⟩

/-- A store that changes at no name is the same. -/
theorem eq {s s' : Store} (h : Changes [] s s') : s' = s := by
  have hget : ∀ x, s'.get? x = s.get? x := fun x => h.get? x List.not_mem_nil
  obtain ⟨new, hnew⟩ := h.names
  -- A new name would be bound behind the evaluation and not before it.
  have hnil : new = [] := by
    rw [List.eq_nil_iff_forall_not_mem]
    intro x hx
    have hmem : x ∈ s'.names := hnew ▸ List.mem_append_right _ hx
    have hold : x ∈ s.names := by
      by_contra hc
      rw [← get?_eq_none_iff, ← hget, get?_eq_none_iff] at hc
      exact hc hmem
    have hnodup : (s.names ++ new).Nodup := hnew ▸ s'.distinct
    exact (List.nodup_append.1 hnodup).2.2 x hold x hx rfl
  rw [hnil, List.append_nil] at hnew
  exact ext_get? hnew.symm hget

end Changes

theorem changes_assign (s : Store) (name : String) (v : Value) :
    Changes [name] s (s.assign name v) := by
  constructor
  · rw [names_assign]
    split
    · exact List.prefix_rfl
    · exact List.prefix_append _ _
  · intro x hx
    rw [get?_assign, if_neg fun hc => hx (List.mem_singleton.2 hc)]

end Store

/-! ## Trees -/

namespace Outcome

@[simp] theorem apply_snd {α β : Type} (o : Outcome α) (f : α → Except Fault β) :
    (o.apply f).2 = o.2 := by
  obtain ⟨r, s⟩ := o
  cases r with
  | ok a => rfl
  | error e => rfl

/-- Two operations on a result are one. -/
theorem apply_apply {α β γ : Type} (o : Outcome α) (f : α → Except Fault β)
    (g : β → Except Fault γ) : (o.apply f).apply g = o.apply fun a => (f a).bind g := by
  obtain ⟨r, s⟩ := o
  cases r with
  | error e => rfl
  | ok a =>
    unfold apply andThen
    dsimp only
    cases f a with
    | ok b => rfl
    | error e => rfl

theorem changes_andThen {α β : Type} {xs ys : List String} {s : Store} {o : Outcome α}
    {f : α → Store → Outcome β} (h : s.Changes xs o.2)
    (hf : ∀ a s', Store.Changes ys s' (f a s').2) : s.Changes (xs ++ ys) (o.andThen f).2 := by
  obtain ⟨r, s'⟩ := o
  cases r with
  | ok a => exact h.trans (hf a s')
  | error e => exact h.mono (List.subset_append_left xs ys)

end Outcome

namespace Tree

mutual
/-- The names that the tree assigns to, at any depth. -/
def targets : Tree → List String
  | .number _ | .variable _ | .foreign _ => []
  | .signed _ t | .group t | .determinant t | .print t => t.targets
  | .sum l r | .subtract l r => l.targets ++ r.targets
  | .array ts | .matrix ts => targetsAll ts
  | .assign name t => t.targets ++ [name]
/-- The names that the trees assign to. -/
def targetsAll : List Tree → List String
  | [] => []
  | t :: ts => t.targets ++ targetsAll ts
end

/-- No assignment stands strictly below the root. -/
def IsFlat : Tree → Prop
  | .assign _ t => t.targets = []
  | t => t.targets = []

mutual
theorem eval_changes : ∀ (t : Tree) (s : Store), s.Changes t.targets (t.eval s).2
  | .number _, s => .refl s
  | .variable _, s => .refl s
  | .foreign _, s => .refl s
  | .signed _ t, s => by
    unfold eval targets
    rw [Outcome.apply_snd]
    exact eval_changes t s
  | .group t, s => by
    unfold eval targets
    exact eval_changes t s
  | .sum l r, s => by
    unfold eval targets
    refine Outcome.changes_andThen (eval_changes l s) fun a s' => ?_
    rw [Outcome.apply_snd]
    exact eval_changes r s'
  | .subtract l r, s => by
    unfold eval targets
    refine Outcome.changes_andThen (eval_changes l s) fun a s' => ?_
    rw [Outcome.apply_snd]
    exact eval_changes r s'
  | .array ts, s => by
    unfold eval targets
    rw [Outcome.apply_snd]
    exact evalAll_changes ts s
  | .matrix ts, s => by
    unfold eval targets
    rw [Outcome.apply_snd]
    exact evalAll_changes ts s
  | .determinant t, s => by
    unfold eval targets
    rw [Outcome.apply_snd]
    exact eval_changes t s
  | .assign name t, s => by
    unfold eval targets
    exact Outcome.changes_andThen (eval_changes t s) fun v s' => s'.changes_assign name v
  | .print t, s => by
    unfold eval targets
    rw [Outcome.apply_snd]
    exact eval_changes t s
theorem evalAll_changes : ∀ (ts : List Tree) (s : Store), s.Changes (targetsAll ts) (evalAll ts s).2
  | [], s => .refl s
  | t :: ts, s => by
    unfold evalAll targetsAll
    refine Outcome.changes_andThen (eval_changes t s) fun v s' => ?_
    rw [Outcome.apply_snd]
    exact evalAll_changes ts s'
end

/-- A tree without assignments leaves the store alone, whether it has a value or not. -/
theorem eval_of_targets {t : Tree} (h : t.targets = []) (s : Store) : (t.eval s).2 = s :=
  (h ▸ eval_changes t s).eq

/-- An assignment of a tree without assignments is made once the tree has a value, and else not. -/
theorem eval_assign_of_targets (name : String) {e : Tree} (h : e.targets = []) (s : Store) :
    (∃ v, e.eval s = (.ok v, s) ∧ (assign name e).eval s = (.ok v, s.assign name v)) ∨
      ∃ f, e.eval s = (.error f, s) ∧ (assign name e).eval s = (.error f, s) := by
  have hs := eval_of_targets h s
  rw [eval]
  generalize e.eval s = o at hs
  obtain ⟨r, s'⟩ := o
  obtain rfl : s' = s := hs
  cases r with
  | ok v => exact .inl ⟨v, rfl, rfl⟩
  | error f => exact .inr ⟨f, rfl, rfl⟩

/-- Below the root nothing is assigned, so a tree that fails leaves the store alone. -/
theorem eval_error_of_isFlat {t : Tree} {s s' : Store} {f : Fault} (ht : t.IsFlat)
    (h : t.eval s = (.error f, s')) : s' = s := by
  cases t with
  | assign name e =>
    obtain ⟨v, -, hv⟩ | ⟨g, -, hg⟩ := eval_assign_of_targets name ht s
    · rw [hv] at h
      cases h
    · rw [hg] at h
      exact (Prod.mk.inj h).2.symm
  | _ =>
    have hs := eval_of_targets ht s
    rw [h] at hs
    exact hs

/-- **Effects of evaluation.** Whether a tree has a value or not, names stay bound and in their order,
new ones come behind them, and a name that is no target keeps its value. If no assignment stands
below the root, then all but assignments leave the store as it was, and so does an assignment that
fails; one that succeeds binds its name to the value that its right-hand side has in the old store,
and changes nothing else. -/
theorem eval_effects (s : Store) :
    (∀ t : Tree, s.names <+: (t.eval s).2.names ∧
      ∀ x, x ∉ t.targets → (t.eval s).2.get? x = s.get? x) ∧
    (∀ t : Tree, t.IsFlat → (∀ name e, t ≠ .assign name e) → (t.eval s).2 = s) ∧
    (∀ name e, IsFlat (.assign name e) →
      (∀ f, ((assign name e).eval s).1 = .error f → ((assign name e).eval s).2 = s) ∧
      ∀ v, ((assign name e).eval s).1 = .ok v →
        let s' := ((assign name e).eval s).2
        e.eval s = (.ok v, s) ∧ s'.get? name = some v ∧ (∀ x, x ≠ name → s'.get? x = s.get? x) ∧
          s'.names = if name ∈ s.names then s.names else s.names ++ [name]) := by
  refine ⟨fun t => ⟨(eval_changes t s).names, (eval_changes t s).get?⟩, ?_, ?_⟩
  · intro t ht hroot
    refine eval_of_targets ?_ s
    cases t with
    | assign name e => exact absurd rfl (hroot name e)
    | _ => exact ht
  · intro name e he
    obtain ⟨v, hv, hassign⟩ | ⟨f, hf, hassign⟩ := eval_assign_of_targets name he s
    · rw [hassign]
      refine ⟨fun f hf => (by cases hf), ?_⟩
      intro w hw
      obtain rfl : v = w := Except.ok.inj hw
      refine ⟨hv, ?_, ?_, s.names_assign name v⟩
      · rw [Store.get?_assign, if_pos rfl]
      · intro x hx
        rw [Store.get?_assign, if_neg hx]
    · rw [hassign]
      exact ⟨fun _ _ => rfl, fun w hw => (by cases hw)⟩

-- An assignment below the root stays when the tree fails behind it.
example :
    ((array [.assign "x" (.number "1"), .variable "y"]).eval .empty).2.names = ["x"] := by
  decide +kernel

end Tree

end MatrixCalc
