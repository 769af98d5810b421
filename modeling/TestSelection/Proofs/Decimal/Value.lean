import Mathlib.Algebra.Order.Field.Rat
import Mathlib.Tactic.Ring
import TestSelection.Decimal.Notation
import TestSelection.Proofs.Digits

/-!
The values of decimal numbers, as rational numbers. Zeros at the end of the unscaled number are made
up for by the scale, so neither stripping them nor a factor of one changes the value.
-/

namespace TestSelection.Decimal

/-- The number that a decimal number stands for. -/
def toRat (d : Decimal) : ℚ := d.unscaled * (10 : ℚ) ^ (-d.scale)

theorem toRat_ofInt (n : Int) : (ofInt n).toRat = n := by
  simp [toRat, ofInt]

theorem cast_tenPower (k : Nat) : ((tenPower k : Nat) : ℚ) = 10 ^ k := by
  rw [tenPower, Nat.pow_eq, Nat.cast_pow, Nat.cast_ofNat]

/-- Zeros appended to the unscaled number lower the scale. -/
theorem toRat_mul_tenPower (n : Int) (k : Nat) (scale : Int) :
    (⟨n * tenPower k, scale⟩ : Decimal).toRat = (⟨n, scale - k⟩ : Decimal).toRat := by
  have hten : (10 : ℚ) ≠ 0 := by norm_num
  have hpower : (10 : ℚ) ^ (-(scale - k)) = 10 ^ k * 10 ^ (-scale) := by
    rw [← zpow_natCast, ← zpow_add₀ hten]
    congr 1
    ring
  simp only [toRat, Int.cast_mul, Int.cast_natCast, cast_tenPower, hpower]
  ring

/-- The zeros at the end of the digits of a number are factors of ten. -/
theorem tenPower_trailingZeros_dvd (n : Nat) : tenPower (trailingZeros n) ∣ n := by
  let zeros := (Nat.repr n).toList.reverse.takeWhile (· == '0')
  let front := (Nat.repr n).toList.reverse.dropWhile (· == '0')
  have hdigits : (Nat.repr n).toList = front.reverse ++ zeros.reverse := by
    rw [← List.reverse_append, List.takeWhile_append_dropWhile, List.reverse_reverse]
  have hzeros : zeros.reverse = List.replicate (trailingZeros n) '0' := by
    rw [List.eq_replicate_iff, List.length_reverse]
    refine ⟨rfl, fun c hc => ?_⟩
    have hall : zeros.all (· == '0') = true := List.all_takeWhile
    exact beq_iff_eq.mp (List.all_eq_true.mp hall c (List.mem_reverse.mp hc))
  have hn := Chars.natOfDigits_append front.reverse zeros.reverse
  rw [← hdigits, Chars.natOfDigits_repr, hzeros, Chars.natOfDigits_replicate_zero,
    List.length_replicate, Nat.add_zero] at hn
  exact Dvd.intro_left _ hn.symm

theorem toRat_strip (d : Decimal) : d.strip.toRat = d.toRat := by
  rw [strip]
  split
  · rename_i hzero
    have hd : d.unscaled = 0 := beq_iff_eq.mp hzero
    simp [toRat, hd, ofInt]
  · have hdvd : ((tenPower (trailingZeros d.unscaled.natAbs) : Nat) : Int) ∣ d.unscaled :=
      Int.natCast_dvd.mpr (tenPower_trailingZeros_dvd _)
    rw [← toRat_mul_tenPower, Int.tdiv_mul_cancel hdvd]

theorem strip_nonneg {d : Decimal} (h : 0 ≤ d.unscaled) : 0 ≤ d.strip.unscaled := by
  rw [strip]
  split
  · exact le_rfl
  · exact Int.tdiv_nonneg h (Int.natCast_nonneg _)

/-- The value one stands for one. -/
theorem toRat_of_isOne {d : Decimal} (h : d.isOne = true) : d.toRat = 1 := by
  simp only [isOne, Bool.and_eq_true, decide_eq_true_eq, beq_iff_eq] at h
  obtain ⟨⟨hscale, -⟩, hone⟩ := h
  have hd : d = ⟨1 * tenPower d.scale.toNat, d.scale⟩ := by
    rw [one_mul, ← hone]
  rw [hd, toRat_mul_tenPower]
  simp [toRat, hscale]

theorem toRat_times (d : Decimal) (factor : Nat) : (d.times factor).toRat = d.toRat * factor := by
  rw [times]
  split
  · rename_i hone
    rw [toRat_of_isOne hone, toRat_ofInt, one_mul, Int.cast_natCast]
  · simp only [toRat, Int.cast_mul, Int.cast_natCast]
    ring

end TestSelection.Decimal
