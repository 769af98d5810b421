import Mathlib.Algebra.Order.Floor.Ring
import Mathlib.Data.Sign.Basic
import TestSelection.Proofs.Decimal.Value

/-!
Operations on decimal numbers and their values. At a common scale the unscaled numbers are the
values times one power of ten, so sums, differences, products and the order are those of the values;
a factor of one and a summand of zero, which change the scale of the result, do not change its
value. A remainder is what the left side has beyond a whole multiple of the right side.
-/

namespace TestSelection.Decimal

variable {a b d : Decimal} {s : Int}

/-! ### Powers of ten -/

theorem ten_zpow_pos (s : Int) : (0 : ℚ) < 10 ^ s := zpow_pos (by norm_num) s

theorem tenPower_eq (k : Nat) : tenPower k = 10 ^ k := Nat.pow_eq

theorem tenPower_pos (k : Nat) : 0 < tenPower k := by
  rw [tenPower_eq]
  exact Nat.pow_pos (by decide)

theorem tenPower_add (j k : Nat) : tenPower (j + k) = tenPower j * tenPower k := by
  rw [tenPower_eq, tenPower_eq, tenPower_eq, pow_add]

theorem tenPower_le_tenPower {j k : Nat} (h : j ≤ k) : tenPower j ≤ tenPower k := by
  rw [tenPower_eq, tenPower_eq]
  exact Nat.pow_le_pow_right (by decide) h

/-! ### Scales -/

theorem toRat_of_cast {n : Int} {q : ℚ} (h : (n : ℚ) = q * 10 ^ s) :
    (⟨n, s⟩ : Decimal).toRat = q := by
  rw [toRat, h, mul_assoc, ← zpow_add₀ (by norm_num : (10 : ℚ) ≠ 0), add_neg_cancel, zpow_zero,
    mul_one]

theorem cast_unscaled (d : Decimal) : (d.unscaled : ℚ) = d.toRat * 10 ^ d.scale := by
  rw [toRat, mul_assoc, ← zpow_add₀ (by norm_num : (10 : ℚ) ≠ 0), neg_add_cancel, zpow_zero,
    mul_one]

theorem cast_raise (h : d.scale ≤ s) : (d.raise s : ℚ) = d.toRat * 10 ^ s := by
  have hpower : ((10 : ℚ) ^ (s - d.scale).toNat) * 10 ^ d.scale = 10 ^ s := by
    rw [← zpow_natCast, Int.toNat_of_nonneg (by omega), ← zpow_add₀ (by norm_num : (10 : ℚ) ≠ 0),
      sub_add_cancel]
  rw [raise, Int.cast_mul, Int.cast_natCast, cast_tenPower, cast_unscaled, ← hpower]
  ring

theorem toRat_raise (h : d.scale ≤ s) : (⟨d.raise s, s⟩ : Decimal).toRat = d.toRat :=
  toRat_of_cast (cast_raise h)

theorem cast_raise_left (a b : Decimal) :
    (a.raise (commonScale a b) : ℚ) = a.toRat * 10 ^ commonScale a b :=
  cast_raise (le_max_left _ _)

theorem cast_raise_right (a b : Decimal) :
    (b.raise (commonScale a b) : ℚ) = b.toRat * 10 ^ commonScale a b :=
  cast_raise (le_max_right _ _)

theorem sign_unscaled (d : Decimal) : d.unscaled.sign = (SignType.sign d.toRat : Int) := by
  rw [toRat, sign_mul, sign_pos (ten_zpow_pos _), mul_one, sign_intCast, Int.sign_eq_sign]

theorem sign_toRat_eq_iff :
    SignType.sign a.toRat = SignType.sign b.toRat ↔ a.unscaled.sign = b.unscaled.sign := by
  have hcast : ∀ s t : SignType, s = t ↔ (s : Int) = t := by decide
  rw [sign_unscaled, sign_unscaled, hcast]

/-! ### Zero and the order -/

theorem toRat_eq_zero_iff : d.toRat = 0 ↔ d.unscaled = 0 := by
  rw [toRat, mul_eq_zero, or_iff_left (ten_zpow_pos _).ne', Int.cast_eq_zero]

theorem isZero_iff : d.isZero = true ↔ d.toRat = 0 := by
  rw [isZero, beq_iff_eq, toRat_eq_zero_iff]

theorem less_iff : a.less b = true ↔ a.toRat < b.toRat := by
  rw [less, decide_eq_true_iff, ← Int.cast_lt (R := ℚ), cast_raise_left, cast_raise_right,
    mul_lt_mul_iff_left₀ (ten_zpow_pos _)]

/-! ### Sums and products -/

theorem toRat_neg (d : Decimal) : (-d).toRat = -d.toRat := by
  have hneg : -d = ⟨-d.unscaled, d.scale⟩ := rfl
  rw [hneg, toRat, toRat, Int.cast_neg, neg_mul]

theorem toRat_addZero (d : Decimal) (scale : Int) : (d.addZero scale).toRat = d.toRat :=
  toRat_raise (le_max_left _ _)

theorem toRat_add (a b : Decimal) : (a + b).toRat = a.toRat + b.toRat := by
  have hadd : a + b = if b.isZero then a.addZero b.scale
      else if a.isZero then b.addZero a.scale else combine (· + ·) a b := rfl
  rw [hadd]
  split
  · rename_i hzero
    rw [toRat_addZero, isZero_iff.mp hzero, add_zero]
  · split
    · rename_i hzero
      rw [toRat_addZero, isZero_iff.mp hzero, zero_add]
    · refine toRat_of_cast ?_
      rw [Int.cast_add, cast_raise_left, cast_raise_right, add_mul]

theorem toRat_mul (a b : Decimal) : (a * b).toRat = a.toRat * b.toRat := by
  have hmul : a * b = if a.isOne then b.strip else if b.isOne then a.strip
      else ⟨a.unscaled * b.unscaled, a.scale + b.scale⟩ := rfl
  rw [hmul]
  split
  · rename_i hone
    rw [toRat_strip, toRat_of_isOne hone, one_mul]
  · split
    · rename_i hone
      rw [toRat_strip, toRat_of_isOne hone, mul_one]
    · refine toRat_of_cast ?_
      rw [Int.cast_mul, cast_unscaled a, cast_unscaled b, zpow_add₀ (by norm_num)]
      ring

/-! ### Remainders -/

theorem mul_tdiv_mul_of_ne_zero {k : Int} (a b : Int) (hk : k ≠ 0) :
    (k * a).tdiv (k * b) = a.tdiv b := by
  rcases lt_or_gt_of_ne hk with hneg | hpos
  · rw [← Int.neg_tdiv_neg, ← Int.neg_mul, ← Int.neg_mul, Int.mul_tdiv_mul_of_pos a b (by omega)]
  · exact Int.mul_tdiv_mul_of_pos a b hpos

/-- Quotients of one value are cut to one whole number. -/
theorem tdiv_eq_of_mul_eq_mul {a b m n : Int} (hb : b ≠ 0) (hn : n ≠ 0) (h : a * n = m * b) :
    a.tdiv b = m.tdiv n := by
  rw [← mul_tdiv_mul_of_ne_zero a b hn, ← mul_tdiv_mul_of_ne_zero m n hb, mul_comm n a, h,
    mul_comm m b, mul_comm n b]

theorem mod_eq (a b : Decimal) :
    a % b = ⟨(a.raise (commonScale a b)).tmod (b.raise (commonScale a b)), commonScale a b⟩ :=
  rfl

theorem raise_ne_zero (h : b.toRat ≠ 0) (hscale : b.scale ≤ s) : b.raise s ≠ 0 := by
  rw [← Int.cast_ne_zero (α := ℚ), cast_raise hscale]
  exact mul_ne_zero h (ten_zpow_pos s).ne'

/-- A remainder is what is left of the left side. -/
theorem toRat_mod {m n : Int} (ha : a.toRat = m) (hb : b.toRat = n) (hn : n ≠ 0) :
    (a % b).toRat = a.toRat - m.tdiv n * b.toRat := by
  have hne : b.toRat ≠ 0 := by rwa [hb, Int.cast_ne_zero]
  have hquotient : (a.raise (commonScale a b)).tdiv (b.raise (commonScale a b)) = m.tdiv n := by
    refine tdiv_eq_of_mul_eq_mul (raise_ne_zero hne (le_max_right _ _)) hn ?_
    rw [← Int.cast_inj (α := ℚ), Int.cast_mul, Int.cast_mul, cast_raise_left, cast_raise_right, ha,
      hb]
    ring
  rw [mod_eq]
  refine toRat_of_cast ?_
  rw [Int.tmod_def, hquotient, Int.cast_sub, Int.cast_mul, cast_raise_left, cast_raise_right]
  ring

/-- A remainder is smaller than the right side, whatever the signs are. -/
theorem abs_toRat_mod_lt (hb : b.toRat ≠ 0) : |(a % b).toRat| < |b.toRat| := by
  have hne := raise_ne_zero hb (le_max_right a.scale b.scale)
  have hlt : |((a.raise (commonScale a b)).tmod (b.raise (commonScale a b)) : ℚ)|
      < |(b.raise (commonScale a b) : ℚ)| := by
    rw [← Int.cast_abs, ← Int.cast_abs, Int.cast_lt, Int.abs_eq_natAbs, Int.abs_eq_natAbs,
      Int.natAbs_tmod, Int.ofNat_lt]
    exact Nat.mod_lt _ (Int.natAbs_pos.mpr hne)
  have hmod : (a % b).toRat
      = (a.raise (commonScale a b)).tmod (b.raise (commonScale a b)) * 10 ^ (-commonScale a b) :=
    rfl
  rw [cast_raise_right] at hlt
  rw [hmod, abs_mul, abs_of_pos (ten_zpow_pos _), zpow_neg, ← div_eq_mul_inv,
    div_lt_iff₀ (ten_zpow_pos _)]
  rwa [abs_mul, abs_of_pos (ten_zpow_pos _)] at hlt

/-- A remainder is zero or has the sign of the left side. -/
theorem sign_toRat_mod (a b : Decimal) :
    (a % b).toRat = 0 ∨ SignType.sign (a % b).toRat = SignType.sign a.toRat := by
  have htmod := Int.sign_tmod (a.raise (commonScale a b)) (b.raise (commonScale a b))
  rw [toRat_eq_zero_iff, ← toRat_raise (d := a) (le_max_left a.scale b.scale), sign_toRat_eq_iff,
    mod_eq]
  split at htmod
  · exact Or.inl (Int.sign_eq_zero_iff_zero.mp htmod)
  · exact Or.inr htmod

end TestSelection.Decimal
