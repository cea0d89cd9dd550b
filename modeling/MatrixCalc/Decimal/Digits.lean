import MatrixCalc.Text.DecimalDigit

/-!
# Decimal texts of integers

Naturals and integers are written in ASCII digits without leading zeros. Main statement:
`digitsValue_natChars`, the digits of a natural have its value.
-/

namespace MatrixCalc

open Text

/-- The digits of a natural, most significant first. -/
def natChars (n : Nat) : List Char :=
  if n < 10 then [Nat.digitChar n] else natChars (n / 10) ++ [Nat.digitChar (n % 10)]
termination_by n

/-- A natural in decimal. -/
def natText (n : Nat) : String := String.ofList (natChars n)

/-- An integer in decimal, with a minus sign if it is negative. -/
def intText (i : Int) : String := if i < 0 then "-" ++ natText i.natAbs else natText i.natAbs

theorem digitValue?_digitChar {n : Nat} (h : n < 10) : digitValue? (Nat.digitChar n) = some n := by
  have : ∀ m : Fin 10, digitValue? (Nat.digitChar m.val) = some m.val := by decide
  exact this ⟨n, h⟩

theorem natChars_ne_nil (n : Nat) : natChars n ≠ [] := by
  rw [natChars]
  split
  · exact List.cons_ne_nil _ _
  · exact fun h => List.cons_ne_nil _ _ (List.append_eq_nil_iff.1 h).2

theorem digitsValue_natChars (n : Nat) : digitsValue (natChars n) = n := by
  induction n using Nat.strongRecOn with
  | ind n ih =>
    rw [natChars]
    split
    · rename_i h
      simp [digitsValue, digitValue?_digitChar h]
    · rw [digitsValue_append_singleton, ih (n / 10) (by omega),
        digitValue?_digitChar (Nat.mod_lt n (by decide)), Option.getD_some]
      omega

theorem isDigit_of_mem_natChars {n : Nat} {c : Char} (h : c ∈ natChars n) : isDigit c = true := by
  induction n using Nat.strongRecOn with
  | ind n ih =>
    rw [natChars] at h
    split at h
    · rename_i hn
      rw [List.mem_singleton] at h
      subst h
      simp [isDigit, digitValue?_digitChar hn]
    · rcases List.mem_append.1 h with h | h
      · exact ih (n / 10) (by omega) h
      · rw [List.mem_singleton] at h
        subst h
        simp [isDigit, digitValue?_digitChar (Nat.mod_lt n (by decide : 0 < 10))]

theorem natChars_injective {m n : Nat} (h : natChars m = natChars n) : m = n := by
  rw [← digitsValue_natChars m, h, digitsValue_natChars]

end MatrixCalc
