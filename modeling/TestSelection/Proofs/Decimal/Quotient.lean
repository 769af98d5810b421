import Mathlib.Data.Nat.Digits.Defs
import Mathlib.Tactic.NormNum
import TestSelection.Proofs.Decimal.Arithmetic

/-!
Quotients cut to whole numbers. A quotient is rounded to a number of digits before it is cut, so it
might be rounded up to the next whole number. Below that number a fraction lies by one part of the
divisor at least. Where the digits of the whole part and of the divisor together fit into the digits
kept, at least as many as the divisor has stand behind the point, and half a unit of the last one is
less than that distance. Then the quotient is cut to what the exact one would be cut to.
-/

namespace TestSelection.Decimal

/-! ### Numbers of digits -/

theorem lt_tenPower_digitCount (n : Nat) : n < tenPower (digitCount n) := by
  rw [tenPower_eq]
  exact (Nat.length_repr_le_iff Nat.length_repr_pos).mp le_rfl

theorem tenPower_le_of_lt_digitCount {k n : Nat} (hn : 0 < n) (h : k < digitCount n) :
    tenPower k ≤ n := by
  rw [tenPower_eq]
  rcases Nat.eq_zero_or_pos k with rfl | hk
  · exact hn
  · refine Nat.le_of_not_lt fun hlt => ?_
    exact absurd ((Nat.length_repr_le_iff hk).mpr hlt) (not_le.mpr h)

/-- With the zeros appended a number reaches the other one. -/
theorem le_mul_tenPower_zerosToReach {n : Nat} (hn : 0 < n) (d : Nat) :
    d ≤ n * tenPower (zerosToReach n d) := by
  rw [zerosToReach]
  split
  · assumption
  · have hn' : tenPower (digitCount n - 1) ≤ n :=
      tenPower_le_of_lt_digitCount hn (Nat.sub_lt Nat.length_repr_pos Nat.one_pos)
    have hdigits : digitCount d ≤ digitCount n - 1 + (digitCount d - digitCount n + 1) := by
      omega
    calc d ≤ tenPower (digitCount d) := (lt_tenPower_digitCount d).le
      _ ≤ tenPower (digitCount n - 1) * tenPower (digitCount d - digitCount n + 1) := by
        rw [← tenPower_add]
        exact tenPower_le_tenPower hdigits
      _ ≤ n * tenPower (digitCount d - digitCount n + 1) := Nat.mul_le_mul_right _ hn'

/-! ### Rounding -/

section Rounding

variable (n d : Nat)

/-- The zeros that the rounded quotient has more than the dividend. -/
def appended : Nat := (roundedQuotient n d).2

/-- The exact quotient with the zeros appended, cut and not rounded. -/
def cutQuotient : Nat := n * tenPower (appended n d) / d

theorem roundedQuotient_eq : (roundedQuotient n d).1 =
    if 5 ≤ n * tenPower (appended n d) % d * 10 / d then cutQuotient n d + 1
    else cutQuotient n d :=
  rfl

theorem cutQuotient_le_roundedQuotient : cutQuotient n d ≤ (roundedQuotient n d).1 := by
  rw [roundedQuotient_eq]
  split
  · exact Nat.le_succ _
  · exact le_rfl

variable {n d}

/-- A quotient is rounded up by no more than half a unit. -/
theorem two_mul_roundedQuotient_le (hd : 0 < d) :
    2 * ((roundedQuotient n d).1 * d) ≤ 2 * (n * tenPower (appended n d)) + d := by
  have hdivision := Nat.div_add_mod' (n * tenPower (appended n d)) d
  rw [← cutQuotient] at hdivision
  rw [roundedQuotient_eq]
  split
  · rename_i hup
    have hhalf := (Nat.le_div_iff_mul_le hd).mp hup
    rw [add_mul, one_mul]
    omega
  · omega

/-- The quotient has all the digits to be kept. -/
theorem tenPower_le_cutQuotient (hn : 0 < n) (hd : 0 < d) :
    tenPower (quotientDigits - 1) ≤ cutQuotient n d := by
  let zeros := zerosToReach n d
  let whole := n * tenPower zeros / d
  let more := quotientDigits - digitCount whole
  have happended : appended n d = zeros + more := rfl
  have hwhole : 0 < whole := Nat.div_pos (le_mul_tenPower_zerosToReach hn d) hd
  have hdigits : tenPower (digitCount whole - 1) ≤ whole :=
    tenPower_le_of_lt_digitCount hwhole (Nat.sub_lt Nat.length_repr_pos Nat.one_pos)
  have hpos : 0 < digitCount whole := Nat.length_repr_pos
  calc tenPower (quotientDigits - 1) ≤ tenPower (digitCount whole - 1) * tenPower more := by
        rw [← tenPower_add]
        exact tenPower_le_tenPower (by omega)
    _ ≤ whole * tenPower more := Nat.mul_le_mul_right _ hdigits
    _ ≤ cutQuotient n d := by
        rw [cutQuotient, happended, tenPower_add, ← mul_assoc, mul_comm _ (tenPower more),
          mul_comm _ (tenPower more)]
        exact Nat.mul_div_le_mul_div_assoc (tenPower more) (n * tenPower zeros) d

/-- On a grid that is fine enough a quotient is not rounded up to the next whole number. -/
theorem roundedQuotient_div {m k grid : Nat} (hd : 0 < d) (hk : 0 < k) (hgrid : k < 2 * grid)
    (h : m * grid * d = n * tenPower (appended n d) * k) :
    (roundedQuotient n d).1 / grid = m / k := by
  have hlow : m / k * grid ≤ cutQuotient n d := by
    rw [cutQuotient, Nat.le_div_iff_mul_le hd]
    refine Nat.le_of_mul_le_mul_right ?_ hk
    calc m / k * grid * d * k = m / k * k * (grid * d) := by ring
      _ ≤ m * (grid * d) := Nat.mul_le_mul_right _ (Nat.div_mul_le_self m k)
      _ = n * tenPower (appended n d) * k := by rw [← h, mul_assoc]
  have hup : 2 * ((roundedQuotient n d).1 * k) ≤ 2 * (m * grid) + k := by
    refine Nat.le_of_mul_le_mul_right ?_ hd
    calc 2 * ((roundedQuotient n d).1 * k) * d = 2 * ((roundedQuotient n d).1 * d) * k := by ring
      _ ≤ (2 * (n * tenPower (appended n d)) + d) * k :=
        Nat.mul_le_mul_right _ (two_mul_roundedQuotient_le hd)
      _ = 2 * (n * tenPower (appended n d) * k) + k * d := by ring
      _ = (2 * (m * grid) + k) * d := by rw [← h]; ring
  have hhigh : (roundedQuotient n d).1 < (m / k + 1) * grid := by
    have hbelow : m * grid + grid ≤ (m / k + 1) * k * grid := by
      rw [← Nat.succ_mul, mul_comm (m / k + 1) k]
      exact Nat.mul_le_mul_right _ (Nat.lt_mul_div_succ m hk)
    refine Nat.lt_of_mul_lt_mul_right (a := k) ?_
    calc (roundedQuotient n d).1 * k < m * grid + grid := by omega
      _ ≤ (m / k + 1) * k * grid := hbelow
      _ = (m / k + 1) * grid * k := by ring
  have hpos : 0 < grid := by omega
  exact Nat.div_eq_of_lt_le (hlow.trans (cutQuotient_le_roundedQuotient n d)) hhigh

end Rounding

/-! ### Cutting -/

theorem tdiv_eq_sign_mul (m n : Int) :
    m.tdiv n = m.sign * n.sign * ((m.natAbs / n.natAbs : Nat) : Int) := by
  have hsign := Int.sign_mul_natAbs (m.tdiv n)
  have habs : (m.tdiv n).natAbs = m.natAbs / n.natAbs := Int.natAbs_tdiv m n
  rw [← hsign, habs, Int.sign_tdiv]
  split
  · rename_i hlt
    simp [Nat.div_eq_of_lt hlt]
  · rfl

theorem sign_mul_tdiv {m n : Int} (hm : m ≠ 0) (hn : n ≠ 0) (q grid : Nat) :
    (m.sign * n.sign * q).tdiv grid = m.sign * n.sign * ((q / grid : Nat) : Int) := by
  rcases lt_or_gt_of_ne hm with hm | hm <;> rcases lt_or_gt_of_ne hn with hn | hn <;>
    simp [Int.sign_eq_neg_one_of_neg, Int.sign_eq_one_of_pos, hm, hn, Int.neg_tdiv]

/-- A number is cut as the quotient of two whole numbers that it is. -/
theorem cutToWhole_eq {d : Decimal} {m n : Int} (hn : n ≠ 0) (h : d.toRat * n = m) :
    d.cutToWhole = ofInt (m.tdiv n) := by
  rw [cutToWhole]
  split
  · rename_i hscale
    have hwhole : d.raise 0 * n = m := by
      rw [← Int.cast_inj (α := ℚ), Int.cast_mul, cast_raise hscale, zpow_zero, mul_one, h]
    rw [← hwhole, Int.mul_tdiv_cancel _ hn]
  · rename_i hscale
    have hpower : ((tenPower d.scale.toNat : Nat) : Int) ≠ 0 := by
      exact_mod_cast (tenPower_pos _).ne'
    congr 1
    refine tdiv_eq_of_mul_eq_mul hpower hn ?_
    rw [← Int.cast_inj (α := ℚ), Int.cast_mul, Int.cast_mul, Int.cast_natCast, cast_tenPower,
      cast_unscaled, ← h, ← zpow_natCast, Int.toNat_of_nonneg (by omega)]
    ring

/-! ### Quotients of whole numbers -/

section Whole

variable {a b d : Decimal} {m n : Int}

theorem sign_of_toRat_eq (h : d.toRat = m) : d.unscaled.sign = m.sign := by
  rw [sign_unscaled, h, sign_intCast, Int.sign_eq_sign]

theorem natAbs_unscaled_pos (h : d.toRat = m) (hm : m ≠ 0) : 0 < d.unscaled.natAbs := by
  rw [Int.natAbs_pos, ← Int.sign_eq_zero_iff_zero.ne, sign_of_toRat_eq h]
  exact Int.sign_eq_zero_iff_zero.ne.mpr hm

theorem cast_natAbs (h : d.toRat = m) :
    (d.unscaled.natAbs : ℚ) = m.natAbs * 10 ^ d.scale := by
  rw [Nat.cast_natAbs, Nat.cast_natAbs, Int.cast_abs, Int.cast_abs, cast_unscaled, h, abs_mul,
    abs_of_pos (ten_zpow_pos _)]

/-- The scale of a rounded quotient. -/
def roundedScale (a b : Decimal) : Int :=
  a.scale - b.scale + appended a.unscaled.natAbs b.unscaled.natAbs

/-- Dividend and divisor in units of the rounded quotient. -/
theorem natAbs_mul_roundedScale (ha : a.toRat = m) (hb : b.toRat = n) :
    (m.natAbs : ℚ) * 10 ^ roundedScale a b * b.unscaled.natAbs =
      a.unscaled.natAbs * 10 ^ appended a.unscaled.natAbs b.unscaled.natAbs * n.natAbs := by
  have hpower : (10 : ℚ) ^ roundedScale a b * 10 ^ b.scale
      = 10 ^ a.scale * 10 ^ appended a.unscaled.natAbs b.unscaled.natAbs := by
    rw [roundedScale, ← zpow_natCast, ← zpow_add₀ (by norm_num), ← zpow_add₀ (by norm_num)]
    congr 1
    ring
  calc (m.natAbs : ℚ) * 10 ^ roundedScale a b * b.unscaled.natAbs
      = m.natAbs * n.natAbs * (10 ^ roundedScale a b * 10 ^ b.scale) := by
        rw [cast_natAbs hb]
        ring
    _ = _ := by
        rw [hpower, cast_natAbs ha]
        ring

/-- A rounded quotient has as many digits behind the point as the digits kept are more than those
of its whole part. -/
theorem quotientDigits_le_roundedScale (ha : a.toRat = m) (hb : b.toRat = n)
    (hm : m ≠ 0) (hn : n ≠ 0) :
    (quotientDigits : Int) ≤ (Nat.digits 10 (m.natAbs / n.natAbs)).length + roundedScale a b := by
  have hdividend := natAbs_unscaled_pos ha hm
  have hdivisor := natAbs_unscaled_pos hb hn
  have hn' : (0 : ℚ) < n.natAbs := by exact_mod_cast Int.natAbs_pos.mpr hn
  have hdivisor' : (0 : ℚ) < b.unscaled.natAbs := by exact_mod_cast hdivisor
  have hwhole : (m.natAbs : ℚ)
      < 10 ^ (Nat.digits 10 (m.natAbs / n.natAbs)).length * n.natAbs := by
    have hlt := Nat.lt_base_pow_length_digits (b := 10) (m := m.natAbs / n.natAbs) (by decide)
    exact_mod_cast (Nat.div_lt_iff_lt_mul (Int.natAbs_pos.mpr hn)).mp hlt
  have hkept : (10 : ℚ) ^ (quotientDigits - 1) * b.unscaled.natAbs
      ≤ a.unscaled.natAbs * 10 ^ appended a.unscaled.natAbs b.unscaled.natAbs := by
    have hle := tenPower_le_cutQuotient hdividend hdivisor
    rw [cutQuotient, Nat.le_div_iff_mul_le hdivisor, tenPower_eq, tenPower_eq] at hle
    exact_mod_cast hle
  have hlt : (10 : ℚ) ^ (quotientDigits - 1) * (n.natAbs * b.unscaled.natAbs)
      < 10 ^ (Nat.digits 10 (m.natAbs / n.natAbs)).length * 10 ^ roundedScale a b
        * (n.natAbs * b.unscaled.natAbs) := by
    calc (10 : ℚ) ^ (quotientDigits - 1) * (n.natAbs * b.unscaled.natAbs)
        = 10 ^ (quotientDigits - 1) * b.unscaled.natAbs * n.natAbs := by ring
      _ ≤ a.unscaled.natAbs * 10 ^ appended a.unscaled.natAbs b.unscaled.natAbs * n.natAbs :=
        mul_le_mul_of_nonneg_right hkept hn'.le
      _ = m.natAbs * 10 ^ roundedScale a b * b.unscaled.natAbs :=
        (natAbs_mul_roundedScale ha hb).symm
      _ < 10 ^ (Nat.digits 10 (m.natAbs / n.natAbs)).length * n.natAbs * 10 ^ roundedScale a b
          * b.unscaled.natAbs :=
        mul_lt_mul_of_pos_right (mul_lt_mul_of_pos_right hwhole (ten_zpow_pos _)) hdivisor'
      _ = _ := by ring
  have hpower := lt_of_mul_lt_mul_right hlt (mul_pos hn' hdivisor').le
  rw [← zpow_natCast, ← zpow_natCast, ← zpow_add₀ (by norm_num),
    zpow_lt_zpow_iff_right₀ (by norm_num)] at hpower
  have hkeeps : ((quotientDigits - 1 : Nat) : Int) + 1 = quotientDigits := rfl
  omega

/-- A rounded quotient is cut to the whole number that the exact one is cut to. -/
theorem cutToWhole_rounded (ha : a.toRat = m) (hb : b.toRat = n) (hm : m ≠ 0) (hn : n ≠ 0)
    (hdigits : (Nat.digits 10 (m.natAbs / n.natAbs)).length + (Nat.digits 10 n.natAbs).length
      ≤ quotientDigits) :
    (⟨a.unscaled.sign * b.unscaled.sign
        * (roundedQuotient a.unscaled.natAbs b.unscaled.natAbs).1, roundedScale a b⟩ :
      Decimal).cutToWhole = ofInt (m.tdiv n) := by
  let q := (roundedQuotient a.unscaled.natAbs b.unscaled.natAbs).1
  let grid := tenPower (roundedScale a b).toNat
  have hn' : 0 < n.natAbs := Int.natAbs_pos.mpr hn
  have hscale := quotientDigits_le_roundedScale ha hb hm hn
  have hgrid : n.natAbs < grid := by
    refine (Nat.lt_base_pow_length_digits (b := 10) (by decide)).trans_le ?_
    rw [← tenPower_eq]
    exact tenPower_le_tenPower (by omega)
  have hpositive : ¬ roundedScale a b ≤ 0 := by
    have hlength : 0 < (Nat.digits 10 n.natAbs).length :=
      List.length_pos_of_ne_nil (Nat.digits_ne_nil_iff_ne_zero.mpr hn'.ne')
    omega
  have hunits : m.natAbs * grid * b.unscaled.natAbs = a.unscaled.natAbs
      * tenPower (appended a.unscaled.natAbs b.unscaled.natAbs) * n.natAbs := by
    have hcast := natAbs_mul_roundedScale ha hb
    rw [← Int.toNat_of_nonneg (not_le.mp hpositive).le, zpow_natCast] at hcast
    rw [tenPower_eq]
    simp only [grid, tenPower_eq]
    exact_mod_cast hcast
  have hwhole : q / grid = m.natAbs / n.natAbs :=
    roundedQuotient_div (natAbs_unscaled_pos hb hn) hn' (by omega) hunits
  rw [cutToWhole, if_neg hpositive, sign_of_toRat_eq ha, sign_of_toRat_eq hb,
    tdiv_eq_sign_mul m n, ← hwhole, sign_mul_tdiv hm hn]

/-- The quotient of whole numbers is cut to the whole number that the exact quotient is cut to, if
its digits and those of the divisor fit into the digits that a quotient keeps. -/
theorem div_eq_ofInt_tdiv (ha : a.toRat = m) (hb : b.toRat = n) (hn : n ≠ 0)
    (hdigits : (Nat.digits 10 (m.natAbs / n.natAbs)).length + (Nat.digits 10 n.natAbs).length
      ≤ quotientDigits) :
    a / b = ofInt (m.tdiv n) := by
  have hdiv : a / b = (quotient a b).cutToWhole := rfl
  rw [hdiv, quotient]
  split
  · rename_i hsame
    refine cutToWhole_eq hn ?_
    rcases Bool.or_eq_true_iff.mp hsame with hzero | hone
    · rw [← ha, isZero_iff.mp hzero, zero_mul]
    · rw [← hb, toRat_of_isOne hone, mul_one, ha]
  · rename_i hsame
    rw [Bool.or_eq_true, not_or] at hsame
    split
    · rename_i hunscaled
      refine cutToWhole_eq hn ?_
      rw [← hb, ← ha, toRat, toRat, toRat, hunscaled, Int.cast_one, one_mul, mul_left_comm,
        ← zpow_add₀ (by norm_num)]
      congr 2
      ring
    · have hm : m ≠ 0 := by
        rintro rfl
        exact hsame.1 (isZero_iff.mpr (by rw [ha, Int.cast_zero]))
      exact cutToWhole_rounded ha hb hm hn hdigits

end Whole

end TestSelection.Decimal
