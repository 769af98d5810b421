import Mathlib.Algebra.Ring.Nat
import TestSelection.Text

/-!
Decimal digits. The number that digits stand for is read off any cut of them, and the digits of a
number stand for it.
-/

namespace TestSelection.Chars

theorem natOfDigits_repr (n : Nat) : natOfDigits (Nat.repr n).toList = n := by
  rw [Nat.toList_repr]
  exact Nat.ofDigitChars_ten_toDigits

theorem natOfDigits_append (s t : List Char) :
    natOfDigits (s ++ t) = natOfDigits s * 10 ^ t.length + natOfDigits t := by
  have hsplit : natOfDigits (s ++ t) = Nat.ofDigitChars 10 t (natOfDigits s) :=
    Nat.ofDigitChars_append 0
  rw [hsplit, Nat.ofDigitChars_eq_ofDigitChars_zero, Nat.mul_comm]
  rfl

theorem natOfDigits_replicate_zero (k : Nat) : natOfDigits (List.replicate k '0') = 0 :=
  Nat.ofDigitChars_replicate_zero

theorem isDigit_of_mem_repr {n : Nat} {c : Char} (h : c ∈ (Nat.repr n).toList) :
    c.isDigit = true := by
  rw [Nat.toList_repr] at h
  exact Nat.isDigit_of_mem_toDigits (by decide) (by decide) h

theorem toList_repr_ne_nil (n : Nat) : (Nat.repr n).toList ≠ [] := by
  rw [Nat.toList_repr]
  exact Nat.toDigits_ne_nil

theorem toNat_of_isDigit {c : Char} (h : c.isDigit = true) : 48 ≤ c.toNat ∧ c.toNat ≤ 57 := by
  simpa [Char.isDigit, UInt32.le_iff_toNat_le] using h

end TestSelection.Chars
