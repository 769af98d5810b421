import TestSelection.Proofs.Decimal.Equality
import TestSelection.Proofs.Expr.Arithmetic

/-!
Comparisons. The orderings compare the values of numbers, whether a side is a number or a text that
is written as one, with a size letter, blanks around it or needless zeros. Where a side is no number
they fault, and equality compares texts. Equality of numbers is found out in another way, digit by
digit, and agrees with the orderings except where a carry is lost: of two numbers with one value and
scales ten to nineteen apart it may say that they differ, and then none of `<`, `==` and `>` holds.
-/

namespace TestSelection.Expr

variable {c : Context} {x y z : Expr} {v w : Value} {a b : Decimal}

/-! ### Orderings -/

theorem less_eq_decide (a b : Decimal) : a.less b = decide (a.toRat < b.toRat) :=
  Bool.eq_iff_iff.mpr (Decimal.less_iff.trans decide_eq_true_iff.symm)

theorem not_less_eq_decide (a b : Decimal) : (!a.less b) = decide (b.toRat ≤ a.toRat) := by
  rw [less_eq_decide, ← decide_not, decide_eq_decide, not_lt]

theorem holds_of_eval {value : Bool} (h : x.eval c = .ok (.bool value)) :
    x.holds c = .ok value :=
  holds_eq_ok.mpr ⟨_, h, rfl⟩

/-- The orderings of numbers are those of their values. -/
theorem holds_ordering (hx : x.Reads c a) (hy : y.Reads c b) :
    (binary .lt x y).holds c = .ok (decide (a.toRat < b.toRat)) ∧
    (binary .gt x y).holds c = .ok (decide (b.toRat < a.toRat)) ∧
    (binary .le x y).holds c = .ok (decide (a.toRat ≤ b.toRat)) ∧
    (binary .ge x y).holds c = .ok (decide (b.toRat ≤ a.toRat)) := by
  rw [← less_eq_decide a b, ← less_eq_decide b a, ← not_less_eq_decide b a,
    ← not_less_eq_decide a b]
  exact ⟨holds_of_eval (eval_of_reads rfl hx hy), holds_of_eval (eval_of_reads rfl hx hy),
    holds_of_eval (eval_of_reads rfl hx hy), holds_of_eval (eval_of_reads rfl hx hy)⟩

theorem holds_lt_iff :
    (binary .lt x y).holds c = .ok true ↔
      ∃ a b, x.Reads c a ∧ y.Reads c b ∧ a.toRat < b.toRat := by
  constructor
  · intro h
    obtain ⟨v, hv, -⟩ := holds_eq_ok.mp h
    obtain ⟨a, b, hx, hy, -⟩ := reads_of_eval_binary rfl hv
    rw [(holds_ordering hx hy).1] at h
    exact ⟨a, b, hx, hy, of_decide_eq_true (Except.ok.inj h)⟩
  · rintro ⟨a, b, hx, hy, hlt⟩
    rw [(holds_ordering hx hy).1, decide_eq_true hlt]

theorem holds_lt_trans (hxy : (binary .lt x y).holds c = .ok true)
    (hyz : (binary .lt y z).holds c = .ok true) : (binary .lt x z).holds c = .ok true := by
  obtain ⟨a, b, hx, hy, hab⟩ := holds_lt_iff.mp hxy
  obtain ⟨b', d, hy', hz, hbd⟩ := holds_lt_iff.mp hyz
  obtain rfl := hy.unique hy'
  exact holds_lt_iff.mpr ⟨a, d, hx, hz, hab.trans hbd⟩

/-! ### Equality -/

theorem holds_eq (hx : x.eval c = .ok v) (hy : y.eval c = .ok w) :
    (binary .eq x y).holds c = .ok (v.same w) ∧
      (binary .ne x y).holds c = .ok (!v.same w) := by
  constructor <;> refine holds_of_eval ?_ <;> rw [eval_binary, hx, hy] <;> rfl

theorem same_of_numbers (hv : v.number? = some a) (hw : w.number? = some b) :
    v.same w = a.equals b := by
  rw [Value.same, hv, hw]

/-! ### Coherence -/

/-- The orderings of two numbers are those of their values, and so is their equality unless a carry
is lost: then `==` denies that they have one value. An ordering of something else faults and names
the first side that is no number. Neither `==` nor `!=` faults, and each says the opposite of the
other. -/
theorem comparisons_agree (hx : x.eval c = .ok v) (hy : y.eval c = .ok w) :
    (∀ a b, v.number? = some a → w.number? = some b →
      (binary .lt x y).holds c = .ok (decide (a.toRat < b.toRat)) ∧
      (binary .gt x y).holds c = .ok (decide (b.toRat < a.toRat)) ∧
      (binary .le x y).holds c = .ok (decide (a.toRat ≤ b.toRat)) ∧
      (binary .ge x y).holds c = .ok (decide (b.toRat ≤ a.toRat)) ∧
      (a.losesCarry b = false →
        (binary .eq x y).holds c = .ok (decide (a.toRat = b.toRat)) ∧
        (binary .ne x y).holds c = .ok (decide (a.toRat ≠ b.toRat))) ∧
      (a.losesCarry b = true → a.toRat = b.toRat →
        (binary .eq x y).holds c = .ok false ∧ (binary .ne x y).holds c = .ok true)) ∧
    (∀ z, (binary .lt x y).holds c = .ok true → (binary .lt y z).holds c = .ok true →
      (binary .lt x z).holds c = .ok true) ∧
    (v.number? = none ∨ w.number? = none →
      ∀ op ∈ [BinaryOp.lt, .le, .gt, .ge], (binary op x y).holds c
        = .error (.notNumeric op (if v.number? = none then v else w).render)) ∧
    ∃ equal, (binary .eq x y).holds c = .ok equal ∧ (binary .ne x y).holds c = .ok (!equal) := by
  obtain ⟨heq, hne⟩ := holds_eq hx hy
  refine ⟨fun a b ha hb => ?_, fun z => holds_lt_trans, fun hnone op hop => ?_, _, heq, hne⟩
  · obtain ⟨hlt, hgt, hle, hge⟩ := holds_ordering (c := c) ⟨v, hx, ha⟩ ⟨w, hy, hb⟩
    rw [heq, hne, same_of_numbers ha hb]
    refine ⟨hlt, hgt, hle, hge, fun hkept => ?_, fun hlost hvalue => ?_⟩
    · have hequals : a.equals b = decide (a.toRat = b.toRat) :=
        Bool.eq_iff_iff.mpr ((Decimal.equals_iff hkept).trans decide_eq_true_iff.symm)
      rw [hequals, decide_not]
      exact ⟨rfl, rfl⟩
    · rw [Decimal.equals_of_losesCarry hlost hvalue]
      exact ⟨rfl, rfl⟩
  · have hnumeric : op.isNumeric = true := by
      simp only [List.mem_cons, List.not_mem_nil, or_false] at hop
      rcases hop with rfl | rfl | rfl | rfl <;> rfl
    exact holds_eq_error.mpr (eval_of_not_numeric hnumeric hx hy hnone)

/-- A size letter, blanks and zeros after the point do not hide an equality, a hundred zeros do not
hide that a digit behind them makes a number greater, and the word `two` is no number. -/
theorem comparisons_agree_sizeLetter :
    let x : Expr := .text " 2k "
    let y : Expr := .number ⟨20480, 1⟩
    let z : Expr := .number ⟨2048 * 10 ^ 101 + 1, 101⟩
    let word : Expr := .text "two"
    let c := Context.empty
    (binary .eq x y).holds c = .ok true ∧ (binary .lt x y).holds c = .ok false ∧
    (binary .lt y z).holds c = .ok true ∧ (binary .eq y z).holds c = .ok false ∧
    (binary .lt word y).holds c = .error (.notNumeric .lt "two") ∧
    (binary .ge x word).holds c = .error (.notNumeric .ge "two") ∧
    ∃ equal, (binary .eq x word).holds c = .ok equal ∧
      (binary .ne x word).holds c = .ok (!equal) := by
  intro x y z word c
  have hx : x.eval c = .ok (.text " 2k ") := rfl
  have hy : y.eval c = .ok (.number ⟨20480, 1⟩) := rfl
  have hz : z.eval c = .ok (.number ⟨2048 * 10 ^ 101 + 1, 101⟩) := rfl
  have hword : word.eval c = .ok (.text "two") := rfl
  have hnumber : (Value.text " 2k ").number? = some ⟨2048, 0⟩ := by decide +kernel
  have hnone : (Value.text "two").number? = none := by decide +kernel
  have hvalue : (⟨20480, 1⟩ : Decimal).toRat = 2048 := by
    rw [Decimal.toRat]
    norm_num
  have hsmaller : (⟨20480, 1⟩ : Decimal).toRat < (⟨2048 * 10 ^ 101 + 1, 101⟩ : Decimal).toRat :=
    Decimal.less_iff.mp (by decide +kernel)
  obtain ⟨hlt, -, -, -, heq, -⟩ := (comparisons_agree hx hy).1 _ _ hnumber rfl
  obtain ⟨hlt', -, -, -, heq', -⟩ := (comparisons_agree hy hz).1 _ _ rfl rfl
  replace heq := (heq (by decide +kernel)).1
  replace heq' := (heq' (by decide +kernel)).1
  rw [hvalue, Decimal.toRat] at hlt heq
  rw [decide_eq_true hsmaller] at hlt'
  rw [decide_eq_false hsmaller.ne] at heq'
  obtain ⟨-, -, hfault, -⟩ := comparisons_agree hword hy
  obtain ⟨-, -, hfault', hequal⟩ := comparisons_agree hx hword
  replace hfault := hfault (Or.inl hnone) .lt (by decide)
  replace hfault' := hfault' (Or.inr hnone) .ge (by decide)
  rw [if_pos hnone] at hfault
  rw [if_neg (by simp [hnumber])] at hfault'
  norm_num at hlt heq
  exact ⟨heq, hlt, hlt', heq', hfault, hfault', hequal⟩

/-- A number written with ten zeros after the point, and without. Times ten to the tenth, the upper
word of the latter and the carry into it do not fit together, and no comparison holds. -/
theorem no_comparison_of_lost_carry :
    let x := "7922816251677867879"
    let y := "7922816251677867879.0000000000"
    Decimal.ofText? x = some ⟨7922816251677867879, 0⟩ ∧
    Decimal.ofText? y = some ⟨79228162516778678790000000000, 10⟩ ∧
    (⟨7922816251677867879, 0⟩ : Decimal).toRat
      = (⟨79228162516778678790000000000, 10⟩ : Decimal).toRat ∧
    textHolds Context.empty (x ++ " < " ++ y) = .ok false ∧
    textHolds Context.empty (x ++ " == " ++ y) = .ok false ∧
    textHolds Context.empty (x ++ " > " ++ y) = .ok false := by
  refine ⟨?_, ?_, ?_, ?_, ?_, ?_⟩
  · decide +kernel
  · decide +kernel
  · rw [Decimal.toRat, Decimal.toRat]
    norm_num
  · decide +kernel
  · decide +kernel
  · decide +kernel

end TestSelection.Expr
