import Mathlib.Data.Nat.Log
import TestSelection.Decimal.Equality
import TestSelection.Proofs.Decimal.Arithmetic

/-!
When numbers are found equal. Word by word a product is compared with a number, each word with what
the words below it carry over. A product that does not fit ends the comparison of words in favour of
the exact one. A carry that does not fit on top of its product is cut, and the carry is then zero
where it should be as large as a word can get. That does not show in the next word but in the one
behind it, unless the products of these two words end the comparison first. So numbers with one
value are found equal except where a carry is lost, and numbers that are found equal have one value
unless a carry is lost. At scales fewer than ten apart, or twenty or more, none is.
-/

namespace TestSelection.Decimal

/-! ### Words -/

theorem words_zero : words 0 = [] := by
  rw [words, if_pos rfl]

theorem words_of_ne_zero {n : Nat} (h : n ≠ 0) :
    words n = n % wordSize :: words (n / wordSize) := by
  rw [words, if_neg h]

theorem productSize_eq : productSize = wordSize * wordSize := rfl

theorem wordSize_pos : 0 < wordSize := by decide

theorem succ_mod_wordSize_ne (n : Nat) : (n + 1) % wordSize ≠ n % wordSize := by
  rw [wordSize]
  omega

/-- The words of a product with a carry, from the lowest one on. -/
theorem eq_mul_add_iff {n m factor carry : Nat} :
    n = m * factor + carry ↔
      n % wordSize = (m % wordSize * factor + carry) % wordSize ∧
        n / wordSize = m / wordSize * factor + (m % wordSize * factor + carry) / wordSize := by
  have hsplit : m * factor + carry
      = m % wordSize * factor + carry + wordSize * (m / wordSize * factor) := by
    conv_lhs => rw [← Nat.mod_add_div m wordSize]
    ring
  have hmod : (m * factor + carry) % wordSize
      = (m % wordSize * factor + carry) % wordSize := by
    rw [hsplit, Nat.add_mul_mod_self_left]
  have hdiv : (m * factor + carry) / wordSize
      = m / wordSize * factor + (m % wordSize * factor + carry) / wordSize := by
    rw [hsplit, Nat.add_mul_div_left _ _ wordSize_pos, add_comm]
  constructor
  · rintro rfl
    exact ⟨hmod, hdiv⟩
  · rintro ⟨hmod', hdiv'⟩
    rw [← Nat.mod_add_div n wordSize, hmod', hdiv', ← hmod, ← hdiv, Nat.mod_add_div]

/-! ### Carries -/

/-- Whether a carry is cut on top of a product that fits, and the products of the next two words fit
as well, from the lowest word upwards. -/
def carryLost (factor : Nat) : Nat → List Nat → Bool
  | _, [] => false
  | carry, p :: part =>
    p * factor < productSize &&
      if p * factor + carry < productSize then
        carryLost factor ((p * factor + carry) / wordSize) part
      else (part.take 2).all fun q => q * factor < productSize

section Carries

variable {factor carry n m : Nat}

theorem div_wordSize_lt {sum : Nat} (h : sum < productSize) : sum / wordSize < wordSize :=
  Nat.div_lt_of_lt_mul (productSize_eq ▸ h)

theorem mod_productSize_mod (sum : Nat) : sum % productSize % wordSize = sum % wordSize :=
  Nat.mod_mod_of_dvd sum (Dvd.intro wordSize productSize_eq.symm)

/-- A carry that does not fit is as large as a word can get and one more, and is cut to zero. -/
theorem carry_of_overflow {product : Nat} (hcarry : carry < wordSize)
    (hproduct : product < productSize) (h : productSize ≤ product + carry) :
    (product + carry) / wordSize = wordSize ∧
      (product + carry) % productSize / wordSize = 0 := by
  have hsum : product + carry < productSize + wordSize := by omega
  have hsize : wordSize ≤ productSize := by decide
  constructor
  · refine Nat.div_eq_of_lt_le ?_ ?_
    · exact h
    · rw [Nat.succ_mul]
      exact hsum
  · rw [Nat.mod_eq_sub_mod h, Nat.mod_eq_of_lt (by omega)]
    exact Nat.div_eq_of_lt (by omega)

/-- One word of a comparison of words. -/
theorem isProduct?_step (hn : n ≠ 0) (hm : m ≠ 0)
    (hfits : m % wordSize * factor < productSize) :
    isProduct? factor carry (words n) (words m) =
      if n % wordSize = (m % wordSize * factor + carry) % wordSize then
        isProduct? factor ((m % wordSize * factor + carry) % productSize / wordSize)
          (words (n / wordSize)) (words (m / wordSize))
      else some false := by
  rw [words_of_ne_zero hn, words_of_ne_zero hm, isProduct?, if_neg (not_le.mpr hfits)]
  simp only [mod_productSize_mod]

theorem isProduct?_overflow (hn : n ≠ 0) (hm : m ≠ 0)
    (h : productSize ≤ m % wordSize * factor) :
    isProduct? factor carry (words n) (words m) = none := by
  rw [words_of_ne_zero hn, words_of_ne_zero hm, isProduct?, if_pos h]

theorem isProduct?_zero (hm : m ≠ 0) :
    isProduct? factor carry (words 0) (words m) = some false := by
  rw [words_zero, words_of_ne_zero hm, isProduct?]

/-- With no words left on the side of the product, the other side is the carry. -/
theorem isProduct?_carry (hcarry : carry < wordSize) (n : Nat) :
    isProduct? factor carry (words n) (words 0) = some (decide (n = carry)) := by
  induction n using Nat.strong_induction_on generalizing carry with
  | _ n ih =>
      rw [words_zero]
      rcases Nat.eq_zero_or_pos n with rfl | hn
      · rw [words_zero, isProduct?, Option.some_inj]
        exact Bool.eq_iff_iff.mpr (by rw [beq_iff_eq, decide_eq_true_iff, eq_comm])
      · rw [words_of_ne_zero hn.ne', isProduct?, ← words_zero,
          ih (n / wordSize) (Nat.div_lt_self hn (by decide)) wordSize_pos]
        have hdivision := Nat.mod_add_div n wordSize
        split
        · rename_i hw
          rw [Option.some_inj, decide_eq_decide]
          constructor
          · intro hzero
            rw [← hdivision, hzero, mul_zero, add_zero, hw]
          · rintro rfl
            exact Nat.div_eq_of_lt hcarry
        · rename_i hw
          have hne : n ≠ carry := fun heq => hw (heq ▸ Nat.mod_eq_of_lt (heq ▸ hcarry))
          rw [decide_eq_false hne]

/-- Behind a carry that has been cut, no comparison finds the words of the product. -/
theorem isProduct?_behind_cut {r : Bool}
    (hoverflow : ∃ q ∈ (words m).take 2, productSize ≤ q * factor)
    (h : isProduct? factor 0 (words n) (words m) = some r) :
    r = false ∧ n ≠ m * factor + wordSize := by
  have hm : m ≠ 0 := by
    rintro rfl
    simp [words_zero] at hoverflow
  rcases eq_or_ne n 0 with rfl | hn
  · rw [isProduct?_zero hm] at h
    have hpos := wordSize_pos
    exact ⟨(Option.some.inj h).symm, by omega⟩
  · rcases lt_or_ge (m % wordSize * factor) productSize with hfits | hfirst
    · rw [isProduct?_step hn hm hfits, add_zero, Nat.mod_eq_of_lt hfits] at h
      split at h
      · obtain ⟨q, hq, hlarge⟩ := hoverflow
        have hm' : m / wordSize ≠ 0 ∧ productSize ≤ m / wordSize % wordSize * factor := by
          rw [words_of_ne_zero hm, List.take_succ_cons, List.mem_cons] at hq
          rcases hq with rfl | hq
          · exact absurd hlarge (not_le.mpr hfits)
          · rcases eq_or_ne (m / wordSize) 0 with hzero | hne
            · simp [hzero, words_zero] at hq
            · rw [words_of_ne_zero hne, List.take_succ_cons, List.take_zero,
                List.mem_singleton] at hq
              exact ⟨hne, hq ▸ hlarge⟩
        rcases eq_or_ne (n / wordSize) 0 with hzero | hne
        · rw [hzero, isProduct?_zero hm'.1] at h
          refine ⟨(Option.some.inj h).symm, fun heq => ?_⟩
          have hdiv := (eq_mul_add_iff.mp heq).2
          rw [hzero, Nat.add_div_right _ wordSize_pos] at hdiv
          exact absurd hdiv.symm (Nat.succ_ne_zero _)
        · rw [isProduct?_overflow hne hm'.1 hm'.2] at h
          exact nomatch h
      · rename_i hw
        refine ⟨(Option.some.inj h).symm, fun heq => hw ?_⟩
        rw [(eq_mul_add_iff.mp heq).1, Nat.add_mod_right]
    · rw [isProduct?_overflow hn hm hfirst] at h
      exact nomatch h

/-- Where no carry is lost, a comparison of words that comes to an end is right. -/
theorem isProduct?_eq_some {r : Bool} (hfactor : 0 < factor) (hcarry : carry < wordSize)
    (hlost : carryLost factor carry (words m) = false)
    (h : isProduct? factor carry (words n) (words m) = some r) :
    r = true ↔ n = m * factor + carry := by
  induction m using Nat.strong_induction_on generalizing n carry with
  | _ m ih =>
      rcases eq_or_ne m 0 with rfl | hm
      · rw [isProduct?_carry hcarry] at h
        rw [← Option.some.inj h, decide_eq_true_iff, zero_mul, zero_add]
      · rcases eq_or_ne n 0 with rfl | hn
        · rw [isProduct?_zero hm] at h
          have hpos := Nat.mul_pos (Nat.pos_of_ne_zero hm) hfactor
          rw [← Option.some.inj h]
          exact ⟨nofun, by omega⟩
        · rcases lt_or_ge (m % wordSize * factor) productSize with hfits | hlarge
          · rw [isProduct?_step hn hm hfits] at h
            rw [words_of_ne_zero hm, carryLost, decide_eq_true hfits, Bool.true_and] at hlost
            split at h
            · rename_i hw
              rw [eq_mul_add_iff, and_iff_right hw]
              split at hlost
              · rename_i hsum
                rw [Nat.mod_eq_of_lt hsum] at h
                exact ih _ (Nat.div_lt_self (Nat.pos_of_ne_zero hm) (by decide))
                  (div_wordSize_lt hsum) hlost h
              · rename_i hsum
                obtain ⟨hnext, hcut⟩ := carry_of_overflow hcarry hfits (not_lt.mp hsum)
                rw [hcut] at h
                rw [hnext]
                simp only [List.all_eq_false, decide_eq_true_eq, not_lt] at hlost
                obtain ⟨rfl, hne⟩ := isProduct?_behind_cut hlost h
                exact ⟨nofun, fun heq => absurd heq hne⟩
            · rename_i hw
              rw [← Option.some.inj h, eq_mul_add_iff]
              exact ⟨nofun, fun heq => absurd heq.1 hw⟩
          · rw [isProduct?_overflow hn hm hlarge] at h
            exact nomatch h

/-- A carry that is one too small shows in the next word. -/
theorem isProduct?_short_carry (hcarry : carry < wordSize)
    (hfits : ∀ q ∈ (words m).take 1, q * factor < productSize) :
    isProduct? factor carry (words (m * factor + (carry + 1))) (words m) = some false := by
  rcases eq_or_ne m 0 with rfl | hm
  · rw [isProduct?_carry hcarry]
    simp
  · have hfirst : m % wordSize * factor < productSize :=
      hfits _ (by simp [words_of_ne_zero hm])
    rw [isProduct?_step (by omega) hm hfirst, if_neg]
    rw [(eq_mul_add_iff.mp rfl).1, ← add_assoc]
    exact succ_mod_wordSize_ne _

/-- Where the words behind a cut carry are compared, they are not found to be the product's. -/
theorem isProduct?_cut
    (hfits : ∀ q ∈ (words m).take 2, q * factor < productSize) :
    isProduct? factor 0 (words (m * factor + wordSize)) (words m) = some false := by
  rcases eq_or_ne m 0 with rfl | hm
  · rw [isProduct?_carry wordSize_pos]
    simp [wordSize]
  · have hwords := words_of_ne_zero hm
    have hfirst : m % wordSize * factor < productSize := hfits _ (by simp [hwords])
    obtain ⟨hmod, hdiv⟩ := eq_mul_add_iff.mp (Eq.refl (m * factor + wordSize))
    rw [Nat.add_mod_right (m % wordSize * factor)] at hmod
    rw [Nat.add_div_right (m % wordSize * factor) wordSize_pos] at hdiv
    rw [isProduct?_step (by have := wordSize_pos; omega) hm hfirst, add_zero, if_pos hmod, hdiv,
      Nat.mod_eq_of_lt hfirst]
    refine isProduct?_short_carry (div_wordSize_lt hfirst) fun q hq => hfits q ?_
    rw [hwords, List.take_succ_cons]
    exact List.mem_cons_of_mem _ hq

/-- Where a carry is lost, a product is not found to be one. -/
theorem isProduct?_of_carryLost (hfactor : 0 < factor) (hcarry : carry < wordSize)
    (hlost : carryLost factor carry (words m) = true) :
    isProduct? factor carry (words (m * factor + carry)) (words m) = some false := by
  induction m using Nat.strong_induction_on generalizing carry with
  | _ m ih =>
      rcases eq_or_ne m 0 with rfl | hm
      · rw [words_zero] at hlost
        exact nomatch hlost
      · rw [words_of_ne_zero hm, carryLost, Bool.and_eq_true, decide_eq_true_eq] at hlost
        obtain ⟨hfits, hlost⟩ := hlost
        obtain ⟨hmod, hdiv⟩ := eq_mul_add_iff.mp (Eq.refl (m * factor + carry))
        have hpos : m * factor + carry ≠ 0 := by
          have := Nat.mul_pos (Nat.pos_of_ne_zero hm) hfactor
          omega
        rw [isProduct?_step hpos hm hfits, if_pos hmod, hdiv]
        split at hlost
        · rename_i hsum
          rw [Nat.mod_eq_of_lt hsum]
          exact ih _ (Nat.div_lt_self (Nat.pos_of_ne_zero hm) (by decide)) (div_wordSize_lt hsum)
            hlost
        · rename_i hsum
          obtain ⟨hnext, hcut⟩ := carry_of_overflow hcarry hfits (not_lt.mp hsum)
          rw [hnext, hcut]
          simp only [List.all_eq_true, decide_eq_true_eq] at hlost
          exact isProduct?_cut hlost

/-- With a factor that fits into a word every carry fits. -/
theorem carryLost_eq_false (hfactor : factor ≤ wordSize) (hcarry : carry < wordSize) :
    carryLost factor carry (words m) = false := by
  induction m using Nat.strong_induction_on generalizing carry with
  | _ m ih =>
      rcases eq_or_ne m 0 with rfl | hm
      · rw [words_zero, carryLost]
      · have hword : m % wordSize * factor ≤ (wordSize - 1) * wordSize :=
          Nat.mul_le_mul (Nat.le_sub_one_of_lt (Nat.mod_lt m wordSize_pos)) hfactor
        have hsum : m % wordSize * factor + carry < productSize := by
          have hsize : (wordSize - 1) * wordSize + wordSize = productSize := by decide
          omega
        rw [words_of_ne_zero hm, carryLost, if_pos hsum,
          ih _ (Nat.div_lt_self (Nat.pos_of_ne_zero hm) (by decide)) (div_wordSize_lt hsum),
          Bool.and_false]

end Carries

/-! ### Zeros appended -/

section Extension

variable {n m zeros : Nat}

/-- A product has about as many binary digits as its factors together. -/
theorem bitCount_mul {factor : Nat} (hm : m ≠ 0) (hfactor : factor ≠ 0) :
    bitCount m + factor.log2 ≤ bitCount (m * factor) := by
  have hlog : m.log2 + factor.log2 ≤ (m * factor).log2 := by
    rw [Nat.le_log2 (Nat.mul_ne_zero hm hfactor), pow_add]
    exact Nat.mul_le_mul (Nat.log2_self_le hm) (Nat.log2_self_le hfactor)
  rw [bitCount, bitCount, if_neg hm, if_neg (Nat.mul_ne_zero hm hfactor)]
  omega

/-- Where no carry is lost, a number is found to be another one with zeros appended if it is. -/
theorem isExtension_iff (hm : m ≠ 0)
    (hlost : zeros < wordwiseLimit → carryLost (tenPower zeros) 0 (words m) = false) :
    isExtension n m zeros = true ↔ n = m * tenPower zeros := by
  rw [isExtension]
  split
  · rename_i hbits
    refine ⟨nofun, ?_⟩
    rintro rfl
    exact absurd hbits (not_lt.mpr (bitCount_mul hm (tenPower_pos zeros).ne'))
  · split
    · rename_i hzeros
      cases h : isProduct? (tenPower zeros) 0 (words n) (words m) with
      | none => rw [Option.getD_none, beq_iff_eq]
      | some r =>
          exact isProduct?_eq_some (tenPower_pos zeros) wordSize_pos (hlost hzeros) h
    · exact beq_iff_eq

/-- Where a carry is lost, a number with zeros appended is not found to be one. -/
theorem isExtension_of_carryLost (hm : m ≠ 0) (hzeros : zeros < wordwiseLimit)
    (hlost : carryLost (tenPower zeros) 0 (words m) = true) :
    isExtension (m * tenPower zeros) m zeros = false := by
  rw [isExtension, if_neg (not_lt.mpr (bitCount_mul hm (tenPower_pos zeros).ne')), if_pos hzeros]
  have h := isProduct?_of_carryLost (tenPower_pos zeros) wordSize_pos hlost
  rw [add_zero] at h
  rw [h, Option.getD_some]

end Extension

/-! ### Numbers -/

section Numbers

variable {a b : Decimal}

/-- Whether a carry is lost when two numbers are compared: on the side with fewer digits after the
point, which is multiplied by the power of ten between the scales. -/
def losesCarry (a b : Decimal) : Bool :=
  let zeros := (a.scale - b.scale).natAbs
  let short := if b.scale < a.scale then b else a
  zeros < wordwiseLimit && carryLost (tenPower zeros) 0 (words short.unscaled.natAbs)

/-- Scales fewer than ten apart, or twenty or more. -/
theorem losesCarry_eq_false_of_scale
    (h : (a.scale - b.scale).natAbs < 10 ∨ wordwiseLimit ≤ (a.scale - b.scale).natAbs) :
    losesCarry a b = false := by
  simp only [losesCarry, Bool.and_eq_false_iff, decide_eq_false_iff_not, not_lt]
  rcases h with h | h
  · refine Or.inr (carryLost_eq_false ?_ wordSize_pos)
    exact (tenPower_le_tenPower (Nat.le_of_lt_succ h)).trans (by decide)
  · exact Or.inl h

theorem losesCarry_comm (h : a.scale ≠ b.scale) : losesCarry a b = losesCarry b a := by
  have hshort : (if b.scale < a.scale then b else a) = if a.scale < b.scale then a else b := by
    rcases lt_or_gt_of_ne h with hlt | hlt
    · rw [if_neg hlt.le.not_gt, if_pos hlt]
    · rw [if_pos hlt, if_neg hlt.le.not_gt]
  have hzeros : (a.scale - b.scale).natAbs = (b.scale - a.scale).natAbs := by omega
  rw [losesCarry, losesCarry, hzeros, hshort]

theorem toRat_eq_iff (h : b.scale ≤ a.scale) :
    a.toRat = b.toRat ↔
      a.unscaled = b.unscaled * tenPower (a.scale - b.scale).toNat := by
  have hraise : b.unscaled * tenPower (a.scale - b.scale).toNat = b.raise a.scale := rfl
  rw [hraise, ← Int.cast_inj (α := ℚ), cast_unscaled, cast_raise h,
    mul_left_inj' (ten_zpow_pos _).ne']

theorem unscaled_eq_mul_iff (hsign : a.unscaled.sign = b.unscaled.sign) (factor : Nat) :
    a.unscaled = b.unscaled * factor ↔
      a.unscaled.natAbs = b.unscaled.natAbs * factor := by
  constructor
  · intro h
    rw [h, Int.natAbs_mul, Int.natAbs_natCast]
  · intro h
    rw [← Int.sign_mul_natAbs a.unscaled, h, hsign, Int.natCast_mul, ← mul_assoc,
      Int.sign_mul_natAbs]

/-- Numbers with one sign, the first with more digits after the point. -/
theorem isExtension_natAbs (hsign : a.unscaled.sign = b.unscaled.sign) (hb : b.unscaled ≠ 0)
    (hscale : b.scale < a.scale) :
    (losesCarry a b = false →
      (isExtension a.unscaled.natAbs b.unscaled.natAbs (a.scale - b.scale).toNat = true ↔
        a.toRat = b.toRat)) ∧
    (losesCarry a b = true → a.toRat = b.toRat →
      isExtension a.unscaled.natAbs b.unscaled.natAbs (a.scale - b.scale).toNat = false) := by
  have hzeros : (a.scale - b.scale).natAbs = (a.scale - b.scale).toNat := by omega
  have hb' : b.unscaled.natAbs ≠ 0 := Int.natAbs_ne_zero.mpr hb
  rw [toRat_eq_iff hscale.le, unscaled_eq_mul_iff hsign]
  simp only [losesCarry, if_pos hscale, hzeros]
  constructor
  · intro hlost
    refine isExtension_iff hb' fun hlimit => ?_
    rwa [decide_eq_true hlimit, Bool.true_and] at hlost
  · intro hlost hvalue
    rw [Bool.and_eq_true, decide_eq_true_iff] at hlost
    rw [hvalue]
    exact isExtension_of_carryLost hb' hlost.1 hlost.2

theorem unscaled_eq_zero_of_sign (hsign : a.unscaled.sign = b.unscaled.sign)
    (ha : a.unscaled = 0) : b.unscaled = 0 :=
  Int.sign_eq_zero_iff_zero.mp (by rw [← hsign, ha, Int.sign_zero])

theorem toRat_ne_of_sign (h : a.unscaled.sign ≠ b.unscaled.sign) : a.toRat ≠ b.toRat :=
  fun hvalue => h (sign_toRat_eq_iff.mp (congrArg SignType.sign hvalue))

/-- Where no carry is lost, numbers are found equal if they have one value. -/
theorem equals_iff (h : losesCarry a b = false) : a.equals b = true ↔ a.toRat = b.toRat := by
  rw [equals]
  split
  · rename_i hsign
    exact ⟨nofun, fun hvalue => absurd hvalue (toRat_ne_of_sign hsign)⟩
  · rename_i hsign
    rw [ne_eq, not_not] at hsign
    split
    · rename_i hzero
      have ha : a.unscaled = 0 := beq_iff_eq.mp hzero
      have hb := unscaled_eq_zero_of_sign hsign ha
      rw [toRat_eq_zero_iff.mpr ha, toRat_eq_zero_iff.mpr hb]
      exact iff_of_true rfl rfl
    · rename_i hzero
      have ha : a.unscaled ≠ 0 := fun ha => hzero (beq_iff_eq.mpr ha)
      have hb : b.unscaled ≠ 0 := fun hb => ha (unscaled_eq_zero_of_sign hsign.symm hb)
      split
      · rename_i hscale
        rw [beq_iff_eq, toRat_eq_iff hscale.ge, hscale, sub_self]
        simp [tenPower]
      · rename_i hscale
        split
        · rename_i hlt
          exact (isExtension_natAbs hsign hb hlt).1 h
        · rename_i hlt
          rw [losesCarry_comm hscale] at h
          rw [eq_comm (a := a.toRat)]
          exact (isExtension_natAbs hsign.symm ha (lt_of_le_of_ne (not_lt.mp hlt) hscale)).1 h

/-- Where a carry is lost, numbers are not found equal although they have one value. -/
theorem equals_of_losesCarry (h : losesCarry a b = true) (hvalue : a.toRat = b.toRat) :
    a.equals b = false := by
  have hscale : a.scale ≠ b.scale := by
    intro heq
    rw [losesCarry_eq_false_of_scale (Or.inl (by omega))] at h
    exact nomatch h
  have hsign : a.unscaled.sign = b.unscaled.sign :=
    not_not.mp fun hne => toRat_ne_of_sign hne hvalue
  have ha : a.unscaled ≠ 0 := by
    intro ha
    have hb := unscaled_eq_zero_of_sign hsign ha
    simp [losesCarry, apply_ite Decimal.unscaled, ha, hb, words_zero, carryLost] at h
  have hb : b.unscaled ≠ 0 := fun hb => ha (unscaled_eq_zero_of_sign hsign.symm hb)
  have hzero : ¬ a.isZero = true := fun hzero => ha (beq_iff_eq.mp hzero)
  rw [equals, if_neg (not_not.mpr hsign), if_neg hzero, if_neg hscale]
  split
  · rename_i hlt
    exact (isExtension_natAbs hsign hb hlt).2 h hvalue
  · rename_i hlt
    rw [losesCarry_comm hscale] at h
    exact (isExtension_natAbs hsign.symm ha (lt_of_le_of_ne (not_lt.mp hlt) hscale)).2 h
      hvalue.symm

end Numbers

end TestSelection.Decimal
