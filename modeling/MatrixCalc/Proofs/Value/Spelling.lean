import MatrixCalc.Proofs.Decimal.NumberText
import MatrixCalc.Proofs.Source.Grammar
import MatrixCalc.Value.Render

/-!
# The texts of values are expressions

The text of a value with finite numbers is an expression of the language. `Spells s t` says that the
text `s` is cut into a word of the tree `t`, at the end of a text and also before a comma or a closing
bracket; such texts are put together to members and brackets.

1. A numeral is cut off whole before what stops it (`takeNumber?_of_stops`): its text holds no comma
   and no bracket, though it may hold signs.
2. The text of a finite number spells a numeral, behind a sign if it is negative (`spells_number`).
3. Members between commas, each spelling a tree, spell the trees in order (`spells_commaSeparated`),
   and in brackets they spell a list or a matrix (`spells_numbers`, `spells_rows`).
-/

namespace MatrixCalc

open Text Grammar Lexer

/-! ## Cutting members -/

/-- Nothing follows, or a comma or a closing bracket does. -/
def Stops (rest : List Char) : Prop := ∀ c ∈ rest.head?, c = ',' ∨ c = ']'

theorem stops_nil : Stops [] := by
  intro c hc
  cases hc

theorem stops_cons {c : Char} (h : c = ',' ∨ c = ']') (rest : List Char) : Stops (c :: rest) := by
  intro d hd
  cases hd
  exact h

theorem takeNumber?_of_stops {m rest : List Char} (hm : m ∈ Terminal.number) (h : Stops rest) :
    takeNumber? (m ++ rest) = some (m, rest) := by
  obtain ⟨text, rest', htake, hle⟩ := length_le_takeNumber? rest hm
  have happ := takeNumber?_append htake
  obtain ⟨more, rfl⟩ : ∃ more, text = m ++ more :=
    (List.prefix_of_prefix_length_le ⟨rest, rfl⟩ ⟨rest', happ⟩ hle).imp fun _ h => h.symm
  rw [List.append_assoc, List.append_cancel_left_eq] at happ
  cases more with
  | nil =>
    rw [List.append_nil] at htake
    rw [htake, ← happ, List.nil_append]
  | cons c more =>
    -- What is cut off behind the numeral starts with the character that stops it.
    have hc : isDigit c = true ∨ c ∈ ['.', 'e', 'E', '+', '-'] :=
      Terminal.mem_of_mem_number (takeNumber?_mem htake)
        (List.mem_append_right _ List.mem_cons_self)
    rcases h c (by rw [← happ]; rfl) with rfl | rfl
    · exact absurd hc (by decide)
    · exact absurd hc (by decide)

theorem splits_number {m rest : List Char} {ts : List Token} (hm : m ∈ Terminal.number)
    (h : Stops rest) (hs : Splits rest ts) :
    Splits (m ++ rest) (.number (String.ofList m) :: ts) :=
  .token (piece?_eq_some_iff.1 (piece?_number hm (takeNumber?_of_stops hm h))) hs

theorem splits_char {c : Char} {t : Token} {rest : List Char} {ts : List Token}
    (h : Token.ofChar? c = some t) (hs : Splits rest ts) : Splits (c :: rest) (t :: ts) :=
  .token (piece?_eq_some_iff.1 (piece?_ofChar? h rest)) hs

theorem splits_space {c : Char} {rest : List Char} {ts : List Token} (hc : isSkipped c = false)
    (hs : Splits (c :: rest) ts) : Splits (' ' :: c :: rest) ts := by
  have h := piece?_blank (c := ' ') (r := []) (List.forall_mem_singleton.2 rfl) (c :: rest)
  rw [List.takeWhile_cons_of_neg (by rw [hc]; exact Bool.false_ne_true),
    List.dropWhile_cons_of_neg (by rw [hc]; exact Bool.false_ne_true)] at h
  exact .skip rfl (piece?_eq_some_iff.1 h) hs

/-! ## Members and brackets -/

/-- The text starts with no blank, and is cut into the word wherever it stops. -/
structure Cuts (s : List Char) (w : List Token) : Prop where
  head : ∃ c r, s = c :: r ∧ isSkipped c = false
  splits : ∀ {rest ts}, Stops rest → Splits rest ts → Splits (s ++ rest) (w ++ ts)

/-- The text is cut into a word of the tree. -/
def Spells (s : List Char) (t : Tree) : Prop := ∃ w, Cuts s w ∧ Expression w t

/-- The text is cut into a word of the members. -/
def SpellsMembers (s : List Char) (ts : List Tree) : Prop := ∃ w, Cuts s w ∧ Members w ts

theorem Cuts.comma {s s' : List Char} {w w' : List Token} (h : Cuts s w) (h' : Cuts s' w') :
    Cuts (s ++ (',' :: ' ' :: s')) (w ++ .comma :: w') := by
  obtain ⟨c, r, rfl, hc⟩ := h.head
  refine ⟨⟨c, r ++ (',' :: ' ' :: s'), rfl, hc⟩, ?_⟩
  intro rest ts hrest hs
  obtain ⟨d, r', rfl, hd⟩ := h'.head
  have hnext := splits_space hd (h'.splits hrest hs)
  have := h.splits (stops_cons (.inl rfl) _) (splits_char rfl hnext)
  rw [List.append_assoc, List.append_assoc]
  exact this

theorem Cuts.bracket {s : List Char} {w : List Token} (h : Cuts s w) :
    Cuts ('[' :: (s ++ [']'])) (.openBracket :: w ++ [.closeBracket]) := by
  refine ⟨⟨'[', s ++ [']'], rfl, rfl⟩, ?_⟩
  intro rest ts hrest hs
  have := h.splits (stops_cons (.inr rfl) rest) (splits_char rfl hs)
  have hchars : '[' :: (s ++ [']']) ++ rest = '[' :: (s ++ ']' :: rest) := by
    rw [List.cons_append, List.append_assoc, List.singleton_append]
  have hword : Token.openBracket :: w ++ [.closeBracket] ++ ts =
      .openBracket :: (w ++ .closeBracket :: ts) := by
    rw [List.cons_append, List.cons_append, List.append_assoc, List.singleton_append]
  rw [hchars, hword]
  exact splits_char rfl this

theorem SpellsMembers.bracket {s : List Char} {ts : List Tree} (h : SpellsMembers s ts) :
    Spells ('[' :: (s ++ [']'])) (.ofBracket ts) := by
  obtain ⟨w, hw, hm⟩ := h
  exact ⟨_, hw.bracket, .signed (.atom (.bracket hm))⟩

/-- Texts between commas spell their trees in order. -/
theorem spells_commaSeparated {α : Type} {text : α → String} {tree : α → Tree} {xs : List α}
    (hne : xs ≠ []) (h : ∀ x ∈ xs, Spells (text x).toList (tree x)) :
    SpellsMembers (commaSeparated (xs.map text)).toList (xs.map tree) := by
  induction xs with
  | nil => exact absurd rfl hne
  | cons x xs ih =>
    rw [List.forall_mem_cons] at h
    obtain ⟨w, hw, he⟩ := h.1
    cases xs with
    | nil => exact ⟨w, hw, .one he⟩
    | cons y xs =>
      obtain ⟨w', hw', hm⟩ := ih (List.cons_ne_nil _ _) h.2
      refine ⟨w ++ .comma :: w', ?_, Members.cons he hm⟩
      have htext : (commaSeparated ((x :: y :: xs).map text)).toList =
          (text x).toList ++ (',' :: ' ' :: (commaSeparated ((y :: xs).map text)).toList) := by
        rw [List.map_cons, List.map_cons, commaSeparated_cons_cons, String.toList_append,
          String.toList_append, List.append_assoc]
        rfl
      rw [htext]
      exact hw.comma hw'

/-! ## Values -/

/-- The tree of a number's text. -/
def numberTree (x : Float) : Tree :=
  let t := Tree.number (String.ofList (magnitudeChars x))
  if Binary.isNegative x then .signed "-" t else t

/-- The tree of the text of a list. -/
def numbersTree (xs : List Float) : Tree := .ofBracket (xs.map numberTree)

theorem cuts_magnitude {x : Float} (hx : Binary.exponentField x ≠ 2047) :
    Cuts (magnitudeChars x) [.number (String.ofList (magnitudeChars x))] := by
  have hm := magnitudeChars_mem_number hx
  obtain ⟨c, r, hcr, hc, -, -⟩ := head_of_mem_number hm
  exact ⟨⟨c, r, hcr, hc⟩, splits_number hm⟩

theorem spells_number {x : Float} (hx : x.isFinite = true) :
    Spells (numberText x).toList (numberTree x) := by
  have hcuts := cuts_magnitude (exponentField_of_isFinite hx)
  have hatom : Signed [.number (String.ofList (magnitudeChars x))]
      (.number (String.ofList (magnitudeChars x))) := .atom (.number _)
  unfold numberText numberChars numberTree
  rw [String.toList_ofList, isNaN_of_isFinite hx, if_neg Bool.false_ne_true]
  dsimp only
  split
  · refine ⟨.minus :: [.number (String.ofList (magnitudeChars x))], ⟨⟨'-', _, rfl, rfl⟩, ?_⟩,
      .signed (.minus hatom)⟩
    intro rest ts hrest hs
    exact splits_char rfl (hcuts.splits hrest hs)
  · exact ⟨_, hcuts, .signed hatom⟩

theorem spells_numbers {xs : List Float} (hne : xs ≠ []) (h : ∀ x ∈ xs, x.isFinite = true) :
    Spells (numbersText xs).toList (numbersTree xs) := by
  have hmembers := spells_commaSeparated hne fun x hx => spells_number (h x hx)
  unfold numbersText
  rw [String.toList_append, String.toList_append]
  exact hmembers.bracket

theorem spells_rows {rows : List (List Float)} (hne : rows ≠ [])
    (h : ∀ row ∈ rows, row ≠ [] ∧ ∀ x ∈ row, x.isFinite = true) :
    Spells ("[" ++ commaSeparated (rows.map numbersText) ++ "]").toList
      (.ofBracket (rows.map numbersTree)) := by
  have hmembers := spells_commaSeparated hne fun row hrow =>
    spells_numbers (h row hrow).1 (h row hrow).2
  rw [String.toList_append, String.toList_append]
  exact hmembers.bracket

theorem spells_empty : Spells "[]".toList (.array []) := by
  refine ⟨[.openBracket, .closeBracket], ⟨⟨'[', [']'], rfl, rfl⟩, ?_⟩, .signed (.atom .emptyBracket)⟩
  intro rest ts hrest hs
  exact splits_char rfl (splits_char rfl hs)

end MatrixCalc
