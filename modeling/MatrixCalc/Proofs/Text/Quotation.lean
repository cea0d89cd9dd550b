import Mathlib.Algebra.Ring.Nat
import Mathlib.Tactic.SplitIfs
import MatrixCalc.Text.Quoted

/-!
# Quoted texts can be read back

A text between quotes tells which text is quoted (`quoted_injective`). A backslash starts an escape and
nothing else, the letter behind it tells how long the escape is, and so characters can be read off one
by one: `unescape` reads what `escapeChar` has written, whatever follows (`unescape_escapeChar`).
-/

namespace MatrixCalc.Text

/-! ## Code points -/

/-- The value of a hexadecimal digit in lower case. -/
def hexDigitValue (c : Char) : Nat := if c.toNat < 97 then c.toNat - 48 else c.toNat - 87

/-- The number that hexadecimal digits write. -/
def hexValue (ds : List Char) : Nat := ds.foldl (fun n c => 16 * n + hexDigitValue c) 0

theorem hexDigitValue_digitChar (n : Nat) : hexDigitValue (Nat.digitChar (n % 16)) = n % 16 := by
  have h : ∀ m : Fin 16, hexDigitValue (Nat.digitChar m.val) = m.val := by decide
  exact h ⟨n % 16, Nat.mod_lt n (by decide)⟩

theorem hexValue_hexDigits {width n : Nat} (h : n < 16 ^ width) : hexValue (hexDigits width n) = n := by
  induction width generalizing n with
  | zero =>
    rw [Nat.pow_zero, Nat.lt_one_iff] at h
    rw [h]
    rfl
  | succ width ih =>
    have hlow : n / 16 < 16 ^ width := Nat.div_lt_of_lt_mul (by rwa [Nat.mul_comm, ← Nat.pow_succ])
    have hhead : (hexDigits width (n / 16)).foldl (fun n c => 16 * n + hexDigitValue c) 0 = n / 16 :=
      ih hlow
    unfold hexValue hexDigits
    rw [List.foldl_append, hhead, List.foldl_cons, List.foldl_nil, hexDigitValue_digitChar]
    omega

/-! ## Escapes -/

/-- The character whose escape stands at the head of a text, and the rest. -/
def unescape : List Char → Option (Char × List Char)
  | [] => none
  | '\\' :: 'n' :: s => some ('\n', s)
  | '\\' :: 'r' :: s => some ('\r', s)
  | '\\' :: 't' :: s => some ('\t', s)
  | '\\' :: 'x' :: s => some (Char.ofNat (hexValue (s.take 2)), s.drop 2)
  | '\\' :: 'u' :: s => some (Char.ofNat (hexValue (s.take 4)), s.drop 4)
  | '\\' :: 'U' :: s => some (Char.ofNat (hexValue (s.take 8)), s.drop 8)
  | '\\' :: c :: s => some (c, s)
  | c :: s => some (c, s)

theorem unescape_code {c mark : Char} {width : Nat} (hc : c.toNat < 16 ^ width)
    (hmark : ∀ s, unescape ('\\' :: mark :: s) =
      some (Char.ofNat (hexValue (s.take width)), s.drop width)) (u : List Char) :
    unescape ('\\' :: mark :: hexDigits width c.toNat ++ u) = some (c, u) := by
  have hlength := length_hexDigits width c.toNat
  rw [List.cons_append, List.cons_append, hmark, List.take_left' hlength, List.drop_left' hlength,
    hexValue_hexDigits hc, Char.ofNat_toNat]

theorem unescape_escapeCode (c : Char) (u : List Char) :
    unescape (escapeCode c ++ u) = some (c, u) := by
  have hlt : c.toNat < 16 ^ 8 := Nat.lt_of_lt_of_le c.val.toNat_lt (by decide)
  unfold escapeCode
  dsimp only
  split_ifs with htwo hfour
  · exact unescape_code htwo (fun _ => rfl) u
  · exact unescape_code hfour (fun _ => rfl) u
  · exact unescape_code hlt (fun _ => rfl) u

theorem unescape_of_ne {c : Char} (h : c ≠ '\\') (u : List Char) :
    unescape (c :: u) = some (c, u) := by
  unfold unescape
  split <;> simp_all

/-- What is written inside quotes for a character is read as that character, whatever follows. -/
theorem unescape_escapeChar {q : Char} (hq : q = '\'' ∨ q = '"') (c : Char) (u : List Char) :
    unescape (escapeChar q c ++ u) = some (c, u) := by
  unfold escapeChar
  split_ifs with hquote hfeed hreturn htab hprintable
  · rcases hquote with rfl | rfl
    · rcases hq with rfl | rfl <;> rfl
    · rfl
  · rw [hfeed]
    rfl
  · rw [hreturn]
    rfl
  · rw [htab]
    rfl
  · exact unescape_of_ne (fun h => hquote (.inr h)) u
  · exact unescape_escapeCode c u

/-! ## Quoted texts -/

theorem flatMap_escapeChar_inj {q : Char} (hq : q = '\'' ∨ q = '"') {s t : List Char}
    (h : s.flatMap (escapeChar q) = t.flatMap (escapeChar q)) : s = t := by
  induction s generalizing t with
  | nil =>
    cases t with
    | nil => rfl
    | cons d t =>
      have hread := unescape_escapeChar hq d (t.flatMap (escapeChar q))
      rw [← List.flatMap_cons, ← h] at hread
      cases hread
  | cons c s ih =>
    have hread := unescape_escapeChar hq c (s.flatMap (escapeChar q))
    rw [← List.flatMap_cons, h] at hread
    cases t with
    | nil => cases hread
    | cons d t =>
      rw [List.flatMap_cons, unescape_escapeChar hq, Option.some.injEq, Prod.mk.injEq] at hread
      rw [hread.1, ih hread.2.symm]

theorem quoteFor_eq (s : List Char) : quoteFor s = '\'' ∨ quoteFor s = '"' := by
  unfold quoteFor
  split
  · exact .inr rfl
  · exact .inl rfl

/-- A quoted text tells which text is quoted. -/
theorem quoted_injective : Function.Injective quoted := by
  intro a b h
  have hchars : quotedChars a.toList = quotedChars b.toList := String.ofList_injective h
  obtain ⟨hquote, hrest⟩ := List.cons.inj hchars
  rw [← hquote] at hrest
  have hinside := (List.append_inj' hrest rfl).1
  exact String.toList_injective (flatMap_escapeChar_inj (quoteFor_eq a.toList) hinside)

end MatrixCalc.Text
