import TestSelection.Proofs.Digits
import TestSelection.Text.Letter

/-!
Letters and digits of ASCII, which are told apart by their numbers. The tables of other scripts have
no say in them.
-/

namespace TestSelection.Chars

variable {c : Char}

theorem toNat_of_isAlpha (h : c.isAlpha = true) :
    65 ≤ c.toNat ∧ c.toNat ≤ 90 ∨ 97 ≤ c.toNat ∧ c.toNat ≤ 122 := by
  rcases Bool.or_eq_true_iff.mp h with hupper | hlower
  · obtain ⟨hlow, hhigh⟩ := of_decide_eq_true hupper
    exact Or.inl ⟨UInt32.le_iff_toNat_le.mp hlow, UInt32.le_iff_toNat_le.mp hhigh⟩
  · obtain ⟨hlow, hhigh⟩ := Bool.and_eq_true_iff.mp hlower
    exact Or.inr ⟨UInt32.le_iff_toNat_le.mp (of_decide_eq_true hlow),
      UInt32.le_iff_toNat_le.mp (of_decide_eq_true hhigh)⟩

theorem isAlpha_of_isDigit (h : c.isDigit = true) : c.isAlpha = false := by
  by_contra hletter
  have hdigit := toNat_of_isDigit h
  have hletter := toNat_of_isAlpha (Bool.of_not_eq_false hletter)
  omega

theorem isWordChar_iff :
    isWordChar c = true ↔ c.isAlpha = true ∨ c.isDigit = true ∨ c = '_' := by
  have hsplit : isWordChar c = (c.isAlpha || c.isDigit || c == '_') := rfl
  rw [hsplit, Bool.or_eq_true, Bool.or_eq_true, beq_iff_eq, or_assoc]

theorem toNat_of_isWordChar (h : isWordChar c = true) : c.toNat < 128 := by
  rcases isWordChar_iff.mp h with hletter | hdigit | rfl
  · have := toNat_of_isAlpha hletter
    omega
  · have := toNat_of_isDigit hdigit
    omega
  · decide

theorem isBlank_of_isWordChar (h : isWordChar c = true) :
    isBlank c = false := by
  have hbounds : 48 ≤ c.toNat ∧ c.toNat ≤ 122 := by
    rcases isWordChar_iff.mp h with hletter | hdigit | rfl
    · have := toNat_of_isAlpha hletter
      omega
    · have := toNat_of_isDigit hdigit
      omega
    · decide
  simp only [isBlank, Bool.or_eq_false_iff, Bool.and_eq_false_iff, decide_eq_false_iff_not]
  omega

theorem isAlphabetic_of_lt (h : c.toNat < 128) : isAlphabetic c = c.isAlpha := if_pos h

theorem isAlphanumeric_of_lt (h : c.toNat < 128) : isAlphanumeric c = c.isAlphanum := if_pos h

end TestSelection.Chars
