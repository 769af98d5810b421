import TestSelection.Proofs.Decimal.Quotient
import TestSelection.Proofs.Expr.Evaluation

/-!
Operators on numbers. Both sides have to come to numbers, and the left side is found wanting first;
then the result is that of the numbers, however each of them is written. Quotients and remainders of
whole numbers are exact as long as the digits of the quotient and of the divisor fit into those that
a quotient keeps. A divisor of the value zero is a fault, at any scale.
-/

namespace TestSelection

def BinaryOp.isNumeric : BinaryOp → Bool
  | .or | .and | .eq | .ne => false
  | _ => true

namespace Expr

variable {c : Context} {x y : Expr} {v w : Value} {a b : Decimal} {op : BinaryOp}

/-- An expression comes to a number, or to a text that is written as one. -/
def Reads (c : Context) (e : Expr) (d : Decimal) : Prop :=
  ∃ v, e.eval c = .ok v ∧ v.number? = some d

theorem reads_of_eval (h : x.eval c = .ok (.number a)) : x.Reads c a := ⟨_, h, rfl⟩

theorem toNumber_eq_ok : v.toNumber op = .ok a ↔ v.number? = some a := by
  rw [Value.toNumber]
  cases v.number? <;> simp

/-- The left side is turned into a number before the right side is looked at. -/
theorem eval_binary_numeric (hop : op.isNumeric = true) :
    (binary op x y).eval c =
      x.eval c >>= fun left => left.toNumber op >>= fun a =>
        y.eval c >>= fun right => right.toNumber op >>= fun b => compute op a b := by
  rw [eval_binary]
  congr 1
  funext left
  cases op with
  | or | and | eq | ne => exact nomatch hop
  | _ =>
      simp only [settled?, join, Value.toNumber, bind, Except.bind]
      cases left.number? <;> rfl

theorem eval_numeric (hop : op.isNumeric = true) (hx : x.eval c = .ok v) (hy : y.eval c = .ok w) :
    (binary op x y).eval c
      = v.toNumber op >>= fun a => w.toNumber op >>= fun b => compute op a b := by
  rw [eval_binary_numeric hop, hx, hy]
  rfl

theorem eval_of_reads (hop : op.isNumeric = true) (hx : x.Reads c a) (hy : y.Reads c b) :
    (binary op x y).eval c = compute op a b := by
  obtain ⟨v, hv, hvnumber⟩ := hx
  obtain ⟨w, hw, hwnumber⟩ := hy
  rw [eval_numeric hop hv hw, toNumber_eq_ok.mpr hvnumber, toNumber_eq_ok.mpr hwnumber]
  rfl

theorem Reads.unique (h : x.Reads c a) (h' : x.Reads c b) : a = b := by
  obtain ⟨v, hv, ha⟩ := h
  obtain ⟨w, hw, hb⟩ := h'
  obtain rfl := Except.ok.inj (hv.symm.trans hw)
  exact Option.some.inj (ha.symm.trans hb)

/-- Behind a result stand two numbers. -/
theorem reads_of_eval_binary (hop : op.isNumeric = true) (h : (binary op x y).eval c = .ok v) :
    ∃ a b, x.Reads c a ∧ y.Reads c b ∧ compute op a b = .ok v := by
  rw [eval_binary_numeric hop] at h
  obtain ⟨left, hleft, h⟩ := bind_eq_ok.mp h
  obtain ⟨a, ha, h⟩ := bind_eq_ok.mp h
  obtain ⟨right, hright, h⟩ := bind_eq_ok.mp h
  obtain ⟨b, hb, h⟩ := bind_eq_ok.mp h
  exact ⟨a, b, ⟨left, hleft, toNumber_eq_ok.mp ha⟩, ⟨right, hright, toNumber_eq_ok.mp hb⟩, h⟩

/-- Of two sides of which one is no number, the first such one is the fault. -/
theorem eval_of_not_numeric (hop : op.isNumeric = true) (hx : x.eval c = .ok v)
    (hy : y.eval c = .ok w) (h : v.number? = none ∨ w.number? = none) :
    (binary op x y).eval c
      = .error (.notNumeric op (if v.number? = none then v else w).render) := by
  rw [eval_numeric hop hx hy, Value.toNumber, Value.toNumber]
  cases hv : v.number? with
  | none => simp [bind, Except.bind]
  | some a =>
      have hw : w.number? = none := h.resolve_left (by simp [hv])
      simp [hw, bind, Except.bind]

/-! ### Quotients and remainders -/

/-- Quotients and remainders fault for each divisor of the value zero, and are exact on whole
numbers: the quotient is the one cut toward zero, the remainder is smaller than the divisor and has
the sign of the dividend unless it is zero, and together they give the dividend back. -/
theorem division_exact (hx : x.Reads c a) (hy : y.Reads c b) :
    (b.toRat = 0 → (binary .div x y).eval c = .error .divisionByZero ∧
      (binary .rem x y).eval c = .error .divisionByZero) ∧
    ∀ m n : Int, a.toRat = m → b.toRat = n → n ≠ 0 →
      (Nat.digits 10 (m.natAbs / n.natAbs)).length + (Nat.digits 10 n.natAbs).length ≤ 100 →
      ∃ q r s : Decimal,
        (binary .div x y).eval c = .ok (.number q) ∧ q.toRat = m.tdiv n ∧
        (binary .rem x y).eval c = .ok (.number r) ∧ |r.toRat| < |b.toRat| ∧
        (r.toRat = 0 ∨ SignType.sign r.toRat = SignType.sign a.toRat) ∧
        (binary .add (binary .mul (binary .div x y) y) (binary .rem x y)).eval c
          = .ok (.number s) ∧ s.toRat = a.toRat := by
  have hdiv : (binary .div x y).eval c = compute .div a b := eval_of_reads rfl hx hy
  have hrem : (binary .rem x y).eval c = compute .rem a b := eval_of_reads rfl hx hy
  constructor
  · intro hzero
    have hb : b.isZero = true := Decimal.isZero_iff.mpr hzero
    rw [hdiv, hrem]
    exact ⟨if_pos hb, if_pos hb⟩
  · intro m n hm hn hn0 hdigits
    have hb : b.toRat ≠ 0 := by rwa [hn, Int.cast_ne_zero]
    have hnonzero : ¬ b.isZero = true := fun hzero => hb (Decimal.isZero_iff.mp hzero)
    replace hdiv := hdiv.trans (if_neg hnonzero)
    replace hrem := hrem.trans (if_neg hnonzero)
    have hquotient : (a / b).toRat = m.tdiv n := by
      rw [Decimal.div_eq_ofInt_tdiv hm hn hn0 hdigits, Decimal.toRat_ofInt]
    have hproduct : (binary .mul (binary .div x y) y).eval c = .ok (.number (a / b * b)) :=
      eval_of_reads rfl (reads_of_eval hdiv) hy
    have hsum : (binary .add (binary .mul (binary .div x y) y) (binary .rem x y)).eval c
        = .ok (.number (a / b * b + a % b)) :=
      eval_of_reads rfl (reads_of_eval hproduct) (reads_of_eval hrem)
    refine ⟨a / b, a % b, a / b * b + a % b, hdiv, hquotient, hrem, Decimal.abs_toRat_mod_lt hb,
      Decimal.sign_toRat_mod a b, hsum, ?_⟩
    rw [Decimal.toRat_add, Decimal.toRat_mul, hquotient, Decimal.toRat_mod hm hn hn0,
      add_sub_cancel]

/-- A quotient that lies below a whole number by less than one part in the number of its digits: its
whole part has forty-nine digits and the divisor fifty-one. -/
theorem division_exact_limit :
    let x : Expr := .neg (.number ⟨(10 ^ 99 - 1) * 100, 2⟩)
    let y : Expr := .number ⟨10 ^ 51, 1⟩
    let zero : Expr := .text " 0.000 "
    let c := Context.empty
    (Nat.digits 10 ((10 ^ 99 - 1) / 10 ^ 50)).length + (Nat.digits 10 (10 ^ 50)).length = 100 ∧
    (binary .div x zero).eval c = .error .divisionByZero ∧
    (binary .rem x zero).eval c = .error .divisionByZero ∧
    ∃ q r s : Decimal,
      (binary .div x y).eval c = .ok (.number q) ∧ q.toRat = -(10 ^ 49 - 1) ∧
      (binary .rem x y).eval c = .ok (.number r) ∧ |r.toRat| < 10 ^ 50 ∧
      (r.toRat = 0 ∨ SignType.sign r.toRat = -1) ∧
      (binary .add (binary .mul (binary .div x y) y) (binary .rem x y)).eval c
        = .ok (.number s) ∧ s.toRat = -(10 ^ 99 - 1) := by
  intro x y zero c
  have hx : x.Reads c (-⟨(10 ^ 99 - 1) * 100, 2⟩) := ⟨_, rfl, rfl⟩
  have hy : y.Reads c ⟨10 ^ 51, 1⟩ := ⟨_, rfl, rfl⟩
  have hzero : zero.Reads c ⟨0, 3⟩ := ⟨.text " 0.000 ", rfl, by decide +kernel⟩
  have ha : (-⟨(10 ^ 99 - 1) * 100, 2⟩ : Decimal).toRat = ((-(10 ^ 99 - 1) : Int) : ℚ) := by
    rw [Decimal.toRat_neg, Decimal.toRat]
    norm_num
  have hb : (⟨10 ^ 51, 1⟩ : Decimal).toRat = ((10 ^ 50 : Int) : ℚ) := by
    rw [Decimal.toRat]
    norm_num
  have hdigits : (Nat.digits 10 ((10 ^ 99 - 1) / 10 ^ 50)).length
      + (Nat.digits 10 (10 ^ 50)).length = 100 := by norm_num
  obtain ⟨hdiv, hrem⟩ := (division_exact hx hzero).1 (by simp [Decimal.toRat])
  obtain ⟨q, r, s, hq, hquotient, hr, hsmall, hsign, hs, hsum⟩ :=
    (division_exact hx hy).2 _ _ ha hb (by norm_num) hdigits.le
  have hcut : (-(10 ^ 99 - 1) : Int).tdiv (10 ^ 50) = -(10 ^ 49 - 1) := by decide +kernel
  rw [hcut] at hquotient
  rw [hb] at hsmall
  rw [ha] at hsign hsum
  refine ⟨hdigits, hdiv, hrem, q, r, s, hq, ?_, hr, ?_, ?_, hs, ?_⟩
  · rw [hquotient]
    norm_num
  · rwa [Int.cast_pow, Int.cast_ofNat, abs_of_pos (by positivity : (0 : ℚ) < 10 ^ 50)] at hsmall
  · rwa [sign_neg (by norm_num : ((-(10 ^ 99 - 1) : Int) : ℚ) < 0)] at hsign
  · rw [hsum]
    norm_num

end Expr

end TestSelection
