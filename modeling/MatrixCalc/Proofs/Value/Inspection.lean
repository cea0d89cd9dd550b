import MatrixCalc.Proofs.Decimal.ReadBack
import MatrixCalc.Proofs.Session.Messages

/-!
# Inspection tells values apart

The rendering for inspection is unambiguous: values with one rendering are one value, whatever their
kinds, also where a matrix has no entries or a text looks like another rendering (`inspect_eq_iff`).

1. A mark that no part holds cuts a text in one way (`append_cons_inj`), and so a row of parts
   (`intercalate_inj`): numbers hold no comma, and the lines of a rendering no line end.
2. The word in front is the kind (`kind_eq_of_inspect`). So a free text is compared with texts only.
3. A list is read off its numbered lines, a matrix off its rows; without entries it has a single line,
   and the shape on that line says how many empty rows there are (`Matrix.inspect_inj`).
-/

namespace MatrixCalc

namespace Text

/-! ## Cutting at marks -/

/-- A mark cuts a text in one way into a part before it without the mark, and the rest. -/
theorem append_cons_inj {c : Char} {a b r s : List Char} (ha : c ∉ a) (hb : c ∉ b)
    (h : a ++ c :: r = b ++ c :: s) : a = b ∧ r = s := by
  induction a generalizing b with
  | nil =>
    cases b with
    | nil => exact ⟨rfl, (List.cons.inj h).2⟩
    | cons d b =>
      obtain ⟨rfl, -⟩ := List.cons.inj h
      exact absurd List.mem_cons_self hb
  | cons d a ih =>
    cases b with
    | nil =>
      obtain ⟨rfl, -⟩ := List.cons.inj h
      exact absurd List.mem_cons_self ha
    | cons e b =>
      obtain ⟨rfl, hrest⟩ := List.cons.inj h
      rw [List.mem_cons, not_or] at ha hb
      obtain ⟨rfl, hrs⟩ := ih ha.2 hb.2 hrest
      exact ⟨rfl, hrs⟩

theorem mem_intercalate_cons_cons (c : Char) (sep x y : List Char) (rest : List (List Char)) :
    c ∈ (c :: sep).intercalate (x :: y :: rest) := by
  rw [List.intercalate_cons_cons, List.append_assoc]
  exact List.mem_append_right x List.mem_cons_self

/-- A mark cuts a row of parts in one way. -/
theorem intercalate_inj {c : Char} {sep : List Char} {xs ys : List (List Char)} (hxs : xs ≠ [])
    (hys : ys ≠ []) (hx : ∀ x ∈ xs, c ∉ x) (hy : ∀ y ∈ ys, c ∉ y)
    (h : (c :: sep).intercalate xs = (c :: sep).intercalate ys) : xs = ys := by
  induction xs generalizing ys with
  | nil => exact absurd rfl hxs
  | cons x xs ih =>
    obtain ⟨y, ys, rfl⟩ := List.exists_cons_of_ne_nil hys
    rw [List.forall_mem_cons] at hx hy
    -- the only part of a row holds no mark, and a row of several parts does
    cases xs with
    | nil =>
      rw [List.intercalate_singleton] at h
      cases ys with
      | nil => rw [h, List.intercalate_singleton]
      | cons y' ys => exact absurd (h ▸ mem_intercalate_cons_cons c sep y y' ys) hx.1
    | cons x' xs =>
      cases ys with
      | nil =>
        rw [List.intercalate_singleton] at h
        exact absurd (h ▸ mem_intercalate_cons_cons c sep x x' xs) hy.1
      | cons y' ys =>
        rw [List.intercalate_cons_cons, List.intercalate_cons_cons, List.append_assoc,
          List.append_assoc, List.cons_append, List.cons_append] at h
        obtain ⟨rfl, hrest⟩ := append_cons_inj hx.1 hy.1 h
        rw [ih (List.cons_ne_nil _ _) (List.cons_ne_nil _ _) hx.2 hy.2
          (List.append_cancel_left hrest)]

theorem texts_inj {c : Char} {sep : List Char} {ss ts : List String} (hss : ss ≠ []) (hts : ts ≠ [])
    (hs : ∀ s ∈ ss, c ∉ s.toList) (ht : ∀ t ∈ ts, c ∉ t.toList)
    (h : (c :: sep).intercalate (ss.map String.toList) =
      (c :: sep).intercalate (ts.map String.toList)) : ss = ts := by
  have hmap : ss.map String.toList = ts.map String.toList :=
    intercalate_inj (mt List.map_eq_nil_iff.1 hss) (mt List.map_eq_nil_iff.1 hts)
      (List.forall_mem_map.2 hs) (List.forall_mem_map.2 ht) h
  exact List.map_injective_iff.2 (fun _ _ => String.toList_inj.1) hmap

theorem toList_commaSeparated (ss : List String) :
    (commaSeparated ss).toList = [',', ' '].intercalate (ss.map String.toList) := by
  induction ss with
  | nil => rfl
  | cons s ss ih =>
    cases ss with
    | nil => rw [commaSeparated_singleton, List.map_singleton, List.intercalate_singleton]
    | cons t ss =>
      rw [commaSeparated_cons_cons, String.toList_append, String.toList_append, ih]
      exact List.intercalate_cons_cons.symm

theorem toList_onLines (ss : List String) :
    (onLines ss).toList = ['\n'].intercalate (ss.map String.toList) := by
  induction ss with
  | nil => rfl
  | cons s ss ih =>
    cases ss with
    | nil =>
      rw [List.map_singleton, List.intercalate_singleton]
      rfl
    | cons t ss =>
      show (s ++ "\n" ++ onLines (t :: ss)).toList = _
      rw [String.toList_append, String.toList_append, ih]
      exact List.intercalate_cons_cons.symm

theorem commaSeparated_inj {ss ts : List String} (hss : ss ≠ []) (hts : ts ≠ [])
    (hs : ∀ s ∈ ss, ',' ∉ s.toList) (ht : ∀ t ∈ ts, ',' ∉ t.toList)
    (h : commaSeparated ss = commaSeparated ts) : ss = ts := by
  have hlist := congrArg String.toList h
  rw [toList_commaSeparated, toList_commaSeparated] at hlist
  exact texts_inj hss hts hs ht hlist

theorem onLines_inj {ss ts : List String} (hss : ss ≠ []) (hts : ts ≠ []) (hs : ∀ s ∈ ss, IsLine s)
    (ht : ∀ t ∈ ts, IsLine t) (h : onLines ss = onLines ts) : ss = ts := by
  have hlist := congrArg String.toList h
  rw [toList_onLines, toList_onLines] at hlist
  exact texts_inj hss hts hs ht hlist

end Text

open Text

/-! ## Numbers in a row -/

theorem shapeText_inj {a b : Nat × Nat} (h : shapeText a = shapeText b) : a = b := by
  have hmark : ∀ n, 'x' ∉ natChars n :=
    fun n hn => absurd (isDigit_of_mem_natChars hn) (by decide)
  have hlist := congrArg String.toList h
  unfold shapeText natText at hlist
  simp only [String.toList_append, String.toList_ofList, List.append_assoc] at hlist
  obtain ⟨hrows, hcols⟩ := append_cons_inj (hmark a.1) (hmark b.1) hlist
  exact Prod.ext (natChars_injective hrows) (natChars_injective hcols)

/-- The marks between numbers stand in no number. -/
theorem not_mem_numberText {c : Char} (hc : c ∈ [',', '\n']) (x : Float) :
    c ∉ (numberText x).toList := by
  unfold numberText
  rw [String.toList_ofList]
  intro h
  simp only [List.mem_cons, List.not_mem_nil, or_false] at hc
  rcases hc with rfl | rfl <;> exact absurd (mem_numberChars h) (by decide)

theorem isLine_numbersText (xs : List Float) : IsLine (numbersText xs) := by
  have hnumbers : ∀ s ∈ xs.map numberText, IsLine s :=
    List.forall_mem_map.2 fun x _ => not_mem_numberText (by decide) x
  exact ((isLine_ofList (by decide)).append (isLine_commaSeparated hnumbers)).append
    (isLine_ofList (by decide))

theorem numbersText_inj {xs ys : List Float} (hxs : xs ≠ []) (hys : ys ≠ [])
    (h : numbersText xs = numbersText ys) : xs = ys := by
  unfold numbersText at h
  rw [String.append_left_inj, String.append_right_inj] at h
  have hcomma : ∀ zs : List Float, ∀ s ∈ zs.map numberText, ',' ∉ s.toList :=
    fun zs => List.forall_mem_map.2 fun x _ => not_mem_numberText (by decide) x
  have hmap : xs.map numberText = ys.map numberText :=
    commaSeparated_inj (mt List.map_eq_nil_iff.1 hxs) (mt List.map_eq_nil_iff.1 hys) (hcomma xs)
      (hcomma ys) h
  exact List.map_injective_iff.2 numberText_injective hmap

/-! ## Lists -/

theorem isLine_of_mem_numberedLines {first : Nat} {xs : List Float} :
    ∀ s ∈ numberedLines first xs, IsLine s := by
  induction xs generalizing first with
  | nil => exact List.forall_mem_nil _
  | cons x xs ih =>
    refine List.forall_mem_cons.2 ⟨?_, ih⟩
    exact (((isLine_ofList (by decide)).append (isLine_natText first)).append
      (isLine_ofList (by decide))).append (not_mem_numberText (by decide) x)

theorem numberedLines_inj {first : Nat} {xs ys : List Float}
    (h : numberedLines first xs = numberedLines first ys) : xs = ys := by
  induction xs generalizing first ys with
  | nil =>
    cases ys with
    | nil => rfl
    | cons y ys => cases h
  | cons x xs ih =>
    cases ys with
    | nil => cases h
    | cons y ys =>
      obtain ⟨hline, hrest⟩ := List.cons.inj h
      rw [String.append_right_inj] at hline
      rw [numberText_injective hline, ih hrest]

theorem inspect_list_inj {xs ys : List Float}
    (h : (Value.list xs).inspect = (Value.list ys).inspect) : xs = ys := by
  have hlines : ∀ zs : List Float, ∀ s ∈ ("list (" ++ natText zs.length ++ ") [") ::
      numberedLines 1 zs ++ ["]"], IsLine s := by
    intro zs
    rw [List.forall_mem_append, List.forall_mem_cons, List.forall_mem_singleton]
    refine ⟨⟨?_, isLine_of_mem_numberedLines⟩, isLine_ofList (by decide)⟩
    exact ((isLine_ofList (by decide)).append (isLine_natText _)).append (isLine_ofList (by decide))
  have hrows := onLines_inj (List.cons_ne_nil _ _) (List.cons_ne_nil _ _) (hlines xs) (hlines ys) h
  exact numberedLines_inj (List.append_cancel_right (List.cons.inj hrows).2)

/-! ## Matrices -/

namespace Matrix

/-- The line in front of a matrix, up to its bracket. -/
def title (m : Matrix) : String := "matrix " ++ shapeText m.shape

/-- The lines of a matrix under inspection. -/
def inspectionLines (m : Matrix) : List String :=
  if m.isDegenerate then [m.title ++ " []"]
  else (m.title ++ " [") :: m.entries.map (fun row => "  " ++ numbersText row) ++ ["]"]

theorem inspect_eq_onLines (m : Matrix) : m.inspect = onLines m.inspectionLines := by
  unfold inspect inspectionLines
  split <;> rfl

theorem inspectionLines_ne_nil (m : Matrix) : m.inspectionLines ≠ [] := by
  unfold inspectionLines
  split <;> exact List.cons_ne_nil _ _

theorem isLine_of_mem_inspectionLines (m : Matrix) : ∀ s ∈ m.inspectionLines, IsLine s := by
  have htitle : IsLine m.title := (isLine_ofList (by decide)).append (isLine_shapeText _)
  unfold inspectionLines
  split
  · exact List.forall_mem_singleton.2 (htitle.append (isLine_ofList (by decide)))
  · rw [List.forall_mem_append, List.forall_mem_cons, List.forall_mem_singleton]
    refine ⟨⟨htitle.append (isLine_ofList (by decide)), ?_⟩, isLine_ofList (by decide)⟩
    exact List.forall_mem_map.2 fun row _ =>
      (isLine_ofList (by decide)).append (isLine_numbersText row)

/-- Only a matrix without entries has a single line. -/
theorem length_inspectionLines (m : Matrix) :
    m.inspectionLines.length = if m.isDegenerate then 1 else m.rows + 2 := by
  unfold inspectionLines
  split
  · rfl
  · rw [List.length_append, List.length_cons, List.length_map]
    rfl

theorem shape_eq_of_append {a b : Matrix} {s : String} (h : a.title ++ s = b.title ++ s) :
    a.shape = b.shape := by
  unfold title at h
  rw [String.append_left_inj, String.append_right_inj] at h
  exact shapeText_inj h

/-- A matrix without entries has empty rows, as many as its shape says. -/
theorem entries_of_isDegenerate {m : Matrix} (h : m.isDegenerate = true) :
    m.entries = List.replicate m.shape.1 [] := by
  refine List.eq_replicate_iff.2 ⟨rfl, fun row hrow => ?_⟩
  unfold isDegenerate at h
  simp only [Bool.or_eq_true, beq_iff_eq] at h
  rcases h with h | h
  · rw [List.length_eq_zero_iff.1 h] at hrow
    cases hrow
  · rw [← List.length_eq_zero_iff, m.width row hrow, h]

theorem ne_nil_of_not_isDegenerate {m : Matrix} (h : ¬ m.isDegenerate = true) :
    ∀ row ∈ m.entries, row ≠ [] := by
  rintro row hrow rfl
  refine h ?_
  unfold isDegenerate
  rw [← m.width [] hrow]
  exact Bool.or_true _

/-- Rows with one text each are one row each, if none is empty. -/
theorem rows_inj {as bs : List (List Float)} (ha : ∀ row ∈ as, row ≠ [])
    (hb : ∀ row ∈ bs, row ≠ [])
    (h : as.map (fun row => "  " ++ numbersText row) = bs.map fun row => "  " ++ numbersText row) :
    as = bs := by
  induction as generalizing bs with
  | nil => exact (List.map_eq_nil_iff.1 h.symm).symm
  | cons row as ih =>
    cases bs with
    | nil => cases h
    | cons row' bs =>
      rw [List.forall_mem_cons] at ha hb
      obtain ⟨hrow, hrest⟩ := List.cons.inj h
      rw [String.append_right_inj] at hrow
      rw [numbersText_inj ha.1 hb.1 hrow, ih ha.2 hb.2 hrest]

/-- Matrices with one rendering are one matrix. -/
theorem inspect_inj {a b : Matrix} (h : a.inspect = b.inspect) : a = b := by
  rw [inspect_eq_onLines, inspect_eq_onLines] at h
  have hlines := onLines_inj a.inspectionLines_ne_nil b.inspectionLines_ne_nil
    a.isLine_of_mem_inspectionLines b.isLine_of_mem_inspectionLines h
  have hlength := congrArg List.length hlines
  rw [length_inspectionLines, length_inspectionLines] at hlength
  suffices hparts : a.shape = b.shape ∧ a.entries = b.entries from
    Matrix.ext (congrArg Prod.snd hparts.1) hparts.2
  unfold inspectionLines at hlines
  by_cases ha : a.isDegenerate = true
  · by_cases hb : b.isDegenerate = true
    · rw [if_pos ha, if_pos hb] at hlines
      have hshape := shape_eq_of_append (List.cons.inj hlines).1
      refine ⟨hshape, ?_⟩
      rw [entries_of_isDegenerate ha, entries_of_isDegenerate hb, hshape]
    · rw [if_pos ha, if_neg hb] at hlength
      omega
  · by_cases hb : b.isDegenerate = true
    · rw [if_neg ha, if_pos hb] at hlength
      omega
    · rw [if_neg ha, if_neg hb] at hlines
      obtain ⟨hfirst, hrows⟩ := List.cons.inj hlines
      exact ⟨shape_eq_of_append hfirst, rows_inj (ne_nil_of_not_isDegenerate ha)
        (ne_nil_of_not_isDegenerate hb) (List.append_cancel_right hrows)⟩

end Matrix

/-! ## Kinds -/

theorem Text.exists_onLines_cons (s : String) (rest : List String) :
    ∃ t, onLines (s :: rest) = s ++ t := by
  cases rest with
  | nil => exact ⟨"", String.append_empty.symm⟩
  | cons t rest => exact ⟨"\n" ++ onLines (t :: rest), String.append_assoc ..⟩

theorem Kind.text_injective : Function.Injective Kind.text := by
  intro k l h
  cases k <;> cases l <;> first | rfl | exact absurd h (by decide)

namespace Value

/-- A rendering starts with the name of the kind. -/
theorem exists_inspect (v : Value) : ∃ s, v.inspect = v.kind.text ++ " " ++ s := by
  cases v with
  | scalar x => exact ⟨numberText x, rfl⟩
  | list xs =>
    obtain ⟨t, ht⟩ := exists_onLines_cons ("list (" ++ natText xs.length ++ ") [")
      (numberedLines 1 xs ++ ["]"])
    refine ⟨"(" ++ natText xs.length ++ ") [" ++ t, ht.trans ?_⟩
    simp only [String.append_assoc]
    rfl
  | matrix m =>
    obtain ⟨s, rest, hlines⟩ : ∃ s rest, m.inspectionLines = (m.title ++ s) :: rest := by
      unfold Matrix.inspectionLines
      split <;> exact ⟨_, _, rfl⟩
    obtain ⟨t, ht⟩ := exists_onLines_cons (m.title ++ s) rest
    refine ⟨shapeText m.shape ++ s ++ t, ?_⟩
    show m.inspect = _
    rw [m.inspect_eq_onLines, hlines, ht]
    simp only [Matrix.title, String.append_assoc]
    rfl
  | text s => exact ⟨"\"" ++ s ++ "\"", rfl⟩

theorem kind_eq_of_inspect {v w : Value} (h : v.inspect = w.inspect) : v.kind = w.kind := by
  have hblank : ∀ k : Kind, ' ' ∉ k.text.toList := by
    intro k
    cases k <;> decide
  obtain ⟨s, hs⟩ := v.exists_inspect
  obtain ⟨t, ht⟩ := w.exists_inspect
  have hlist := congrArg String.toList (hs.symm.trans (h.trans ht))
  simp only [String.toList_append, List.append_assoc] at hlist
  have hkinds := (append_cons_inj (hblank v.kind) (hblank w.kind) hlist).1
  exact Kind.text_injective (String.toList_inj.1 hkinds)

/-- **Inspection is unambiguous.** Values with one rendering are one value: they have one kind, one
shape or length, and the same numbers in the same places or the same text. -/
theorem inspect_eq_iff (v w : Value) : v.inspect = w.inspect ↔ v = w := by
  refine ⟨fun h => ?_, congrArg inspect⟩
  have hkind := kind_eq_of_inspect h
  cases v with
  | scalar x =>
    cases w with
    | scalar y =>
      rw [numberText_injective ((String.append_right_inj "scalar ").1 h)]
    | _ => cases hkind
  | list xs =>
    cases w with
    | list ys => rw [inspect_list_inj h]
    | _ => cases hkind
  | matrix a =>
    cases w with
    | matrix b => rw [Matrix.inspect_inj h]
    | _ => cases hkind
  | text s =>
    cases w with
    | text t =>
      have htext := (String.append_left_inj "\"").1 h
      rw [(String.append_right_inj "string \"").1 htext]
    | _ => cases hkind

end Value

end MatrixCalc
