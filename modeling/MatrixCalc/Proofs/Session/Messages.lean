import MatrixCalc.Proofs.Eval.Faults
import MatrixCalc.Proofs.Source.Separators
import MatrixCalc.Session

/-!
# The messages of errors are single lines

A text that a session refuses is refused for a reason of the language, never for a tree that is no
syntax, and the message is a single line (`error_of_evalText`): what it quotes of the source is
escaped or a name, and all else it holds are words and numbers.

1. `Text.IsLine` holds of numbers, quoted texts and lists, and goes through appending.
2. Hence every message is a line whose names are (`Fault.isLine_message`, `ParseError.isLine_message`).
3. The variables that a statement of a text reads are identifiers (`isIdentifier_of_mem_reads`).
-/

namespace MatrixCalc

namespace Text

/-- The text holds no line end. -/
def IsLine (s : String) : Prop := '\n' ∉ s.toList

theorem isLine_ofList {cs : List Char} (h : '\n' ∉ cs) : IsLine (String.ofList cs) := by
  unfold IsLine
  rwa [String.toList_ofList]

theorem IsLine.append {s t : String} (hs : IsLine s) (ht : IsLine t) : IsLine (s ++ t) := by
  unfold IsLine at *
  rw [String.toList_append, List.mem_append, not_or]
  exact ⟨hs, ht⟩

theorem isLine_commaSeparated {xs : List String} (h : ∀ x ∈ xs, IsLine x) :
    IsLine (commaSeparated xs) := by
  induction xs with
  | nil => exact isLine_ofList (by decide)
  | cons x xs ih =>
    rw [List.forall_mem_cons] at h
    cases xs with
    | nil => exact h.1
    | cons y xs =>
      rw [commaSeparated_cons_cons]
      exact (h.1.append (isLine_ofList (by decide))).append (ih h.2)

theorem not_mem_hexDigits (width n : Nat) : '\n' ∉ hexDigits width n := by
  induction width generalizing n with
  | zero => simp [hexDigits]
  | succ width ih =>
    have hdigit : ∀ m : Fin 16, '\n' ≠ Nat.digitChar m.val := by decide
    simp only [hexDigits, List.mem_append, List.mem_singleton, not_or]
    exact ⟨ih _, hdigit ⟨n % 16, Nat.mod_lt n (by decide)⟩⟩

theorem not_mem_escapeCode (c : Char) : '\n' ∉ escapeCode c := by
  unfold escapeCode
  dsimp only
  split
  · simp [not_mem_hexDigits]
  · split <;> simp [not_mem_hexDigits]

theorem not_mem_escapeChar {q : Char} (hq : q ≠ '\n') (c : Char) : '\n' ∉ escapeChar q c := by
  unfold escapeChar
  split
  · rename_i hc
    rcases hc with rfl | rfl
    · simpa using hq.symm
    · decide
  · split
    · decide
    · rename_i hc
      split
      · decide
      · split
        · decide
        · split
          · simpa using Ne.symm hc
          · exact not_mem_escapeCode c

/-- A quoted text is a line, whatever is quoted. -/
theorem isLine_quoted (s : String) : IsLine (quoted s) := by
  have hq : quoteFor s.toList ≠ '\n' := by
    unfold quoteFor
    split <;> decide
  refine isLine_ofList ?_
  unfold quotedChars
  simp only [List.cons_append, List.mem_cons, List.mem_append, List.mem_flatMap, not_or, not_exists,
    not_and, List.not_mem_nil, not_false_eq_true, and_true]
  exact ⟨hq.symm, fun c _ => not_mem_escapeChar hq c, hq.symm⟩

end Text

open Text

theorem isLine_natText (n : Nat) : IsLine (natText n) := by
  refine isLine_ofList fun h => ?_
  exact absurd (isDigit_of_mem_natChars h) (by decide)

theorem isLine_intText (i : Int) : IsLine (intText i) := by
  unfold intText
  split
  · exact (isLine_ofList (by decide)).append (isLine_natText _)
  · exact isLine_natText _

theorem ParseError.isLine_message (e : ParseError) : IsLine e.message := by
  have hwording : IsLine e.offence.wording := by
    cases e.offence with
    | token t => exact (isLine_ofList (by decide)).append (isLine_quoted _)
    | character c => exact (isLine_ofList (by decide)).append (isLine_quoted _)
    | ending => exact isLine_ofList (by decide)
  exact (((((isLine_ofList (by decide)).append (isLine_intText e.place.line)).append
    (isLine_ofList (by decide))).append (isLine_intText e.place.column)).append
    (isLine_ofList (by decide))).append hwording

theorem Kind.isLine_text (k : Kind) : IsLine k.text := by
  cases k <;> exact isLine_ofList (by decide)

theorem Operation.isLine_text (op : Operation) : IsLine op.text := by
  cases op <;> exact isLine_ofList (by decide)

theorem isLine_shapeText (shape : Nat × Nat) : IsLine (shapeText shape) :=
  ((isLine_natText _).append (isLine_ofList (by decide))).append (isLine_natText _)

theorem ShapeFault.isLine_message (f : ShapeFault) : IsLine f.message := by
  cases f with
  | dimensions n =>
    exact ((isLine_ofList (by decide)).append (isLine_natText n)).append (isLine_ofList (by decide))
  | unevenRows => exact isLine_ofList (by decide)
  | differ l r =>
    exact ((((isLine_ofList (by decide)).append (isLine_shapeText l)).append
      (isLine_ofList (by decide))).append (isLine_shapeText r)).append (isLine_ofList (by decide))
  | notSquare s => exact (isLine_ofList (by decide)).append (isLine_shapeText s)

/-- The message of a fault is a line if what it names is one. -/
theorem Fault.isLine_message {f : Fault} (hname : ∀ x, f = .undefinedVariable x → IsLine x)
    (hnumber : ∀ x, f = .malformedNumber x → IsLine x)
    (htype : ∀ x, f = .foreignTree x → IsLine x) : IsLine f.message := by
  cases f with
  | malformedNumber x =>
    exact ((isLine_ofList (by decide)).append (hnumber x rfl)).append (isLine_ofList (by decide))
  | undefinedVariable x =>
    exact ((isLine_ofList (by decide)).append (hname x rfl)).append (isLine_ofList (by decide))
  | kindsDiffer op l r =>
    exact (((op.isLine_text.append (isLine_ofList (by decide))).append l.isLine_text).append
      (isLine_ofList (by decide))).append r.isLine_text
  | shape op f =>
    exact (op.isLine_text.append (isLine_ofList (by decide))).append f.isLine_message
  | unsupported op k =>
    exact (op.isLine_text.append (isLine_ofList (by decide))).append k.isLine_text
  | listMember k => exact (isLine_ofList (by decide)).append k.isLine_text
  | mixedMembers e f =>
    exact (((isLine_ofList (by decide)).append e.isLine_text).append
      (isLine_ofList (by decide))).append f.isLine_text
  | raggedRows lengths =>
    refine (isLine_ofList (by decide)).append (isLine_commaSeparated fun x hx => ?_)
    obtain ⟨n, -, rfl⟩ := List.mem_map.1 hx
    exact isLine_natText n
  | matrixMember k => exact (isLine_ofList (by decide)).append k.isLine_text
  | notAMatrix k => exact (isLine_ofList (by decide)).append k.isLine_text
  | foreignTree x => exact (isLine_ofList (by decide)).append (htype x rfl)

/-! ## Errors of texts -/

theorem isLine_of_isIdentifier {x : String} (h : IsIdentifier x) : IsLine x :=
  fun hc => absurd (isNameRest_of_mem_name h.1 hc) (by decide)

namespace Tree

mutual
theorem isIdentifier_of_mem_reads : ∀ (t : Tree), t.IsExpression → ∀ x ∈ t.reads, IsIdentifier x
  | .number _, _, _, hx => by cases hx
  | .variable name, h, x, hx => by
    rw [List.mem_singleton.1 hx]
    exact h
  | .signed _ t, h, x, hx => isIdentifier_of_mem_reads t h.2.1 x hx
  | .group t, h, x, hx => isIdentifier_of_mem_reads t h x hx
  | .sum l r, h, x, hx => by
    rcases List.mem_append.1 hx with hx | hx
    · exact isIdentifier_of_mem_reads l h.1 x hx
    · exact isIdentifier_of_mem_reads r h.2.1 x hx
  | .subtract l r, h, x, hx => by
    rcases List.mem_append.1 hx with hx | hx
    · exact isIdentifier_of_mem_reads l h.1 x hx
    · exact isIdentifier_of_mem_reads r h.2.1 x hx
  | .array ts, h, x, hx => isIdentifier_of_mem_readsAll ts h.1 x hx
  | .matrix ts, h, x, hx => isIdentifier_of_mem_readsAll ts h x hx
  | .determinant t, h, x, hx => isIdentifier_of_mem_reads t h x hx
theorem isIdentifier_of_mem_readsAll : ∀ (ts : List Tree), AreExpressions ts →
    ∀ x ∈ readsAll ts, IsIdentifier x
  | [], _, _, hx => by cases hx
  | t :: ts, h, x, hx => by
    rcases List.mem_append.1 hx with hx | hx
    · exact isIdentifier_of_mem_reads t h.1 x hx
    · exact isIdentifier_of_mem_readsAll ts h.2 x hx
end

theorem IsStatement.isIdentifier_of_mem_reads {t : Tree} (h : t.IsStatement) :
    ∀ x ∈ t.reads, IsIdentifier x := by
  cases t with
  | assign name e => exact Tree.isIdentifier_of_mem_reads e h.2
  | print e => exact Tree.isIdentifier_of_mem_reads e h
  | _ => exact h.elim

end Tree

/-- The error is one of the language: a tree that is no syntax has no place in a report. -/
def Error.IsOfLanguage : Error → Prop
  | .parse _ => True
  | .fault f => ∀ type, f ≠ .foreignTree type

namespace Session

theorem exists_of_runAll_error {s : Session} {ts : List Tree} {f : Fault}
    (h : (s.runAll ts).1 = .error f) : ∃ t ∈ ts, ∃ store, (t.eval store).1 = .error f := by
  induction ts generalizing s with
  | nil => cases h
  | cons t ts ih =>
    unfold runAll run at h
    cases ht : t.eval s.store with
    | mk r store =>
      rw [ht] at h
      cases r with
      | ok v =>
        obtain ⟨u, hu, hfail⟩ := ih h
        exact ⟨u, List.mem_cons_of_mem _ hu, hfail⟩
      | error f' =>
        cases h
        exact ⟨t, List.mem_cons_self, s.store, by rw [ht]⟩

theorem exists_of_evalText_fault {s : Session} {text : String} {f : Fault}
    (h : (s.evalText text).1 = .error (.fault f)) :
    ∃ ts, parseProgram text = .ok ts ∧ ∃ t ∈ ts, ∃ store, (t.eval store).1 = .error f := by
  unfold evalText at h
  split at h
  · cases h
  · rename_i ts hparse
    split at h
    · cases h
    · rename_i hmerge
      cases h
      exact ⟨ts, hparse, exists_of_runAll_error (congrArg Prod.fst hmerge)⟩

/-- A text is refused for a reason of the language, in a single line. -/
theorem error_of_evalText {s : Session} {text : String} {e : Error}
    (h : (s.evalText text).1 = .error e) : e.IsOfLanguage ∧ IsLine e.message := by
  cases e with
  | parse e => exact ⟨trivial, e.isLine_message⟩
  | fault f =>
    obtain ⟨ts, hparse, t, ht, store, hf⟩ := exists_of_evalText_fault h
    have hstatement := isStatement_of_parseProgram hparse t ht
    obtain ⟨-, hop | ⟨x, rfl, hx, -⟩⟩ := Tree.explains_of_isStatement hstatement hf
    · refine ⟨?_, Fault.isLine_message ?_ ?_ ?_⟩
      · rintro x rfl
        exact hop
      · rintro x rfl
        exact hop.elim
      · rintro x rfl
        exact hop.elim
      · rintro x rfl
        exact hop.elim
    · have hline := isLine_of_isIdentifier (hstatement.isIdentifier_of_mem_reads x hx)
      refine ⟨nofun, Fault.isLine_message ?_ ?_ ?_⟩
      · rintro y hy
        cases hy
        exact hline
      · rintro y hy
        cases hy
      · rintro y hy
        cases hy

end Session

end MatrixCalc
