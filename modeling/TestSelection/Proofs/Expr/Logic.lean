import TestSelection.Proofs.Expr.Evaluation

/-!
The logical operators. Whether a disjunction, a conjunction or a negation holds is settled by what
its operands come to, a truth value or a fault, where an operand on the right side counts only if
the one on the left does not decide. This is sequential logic: it has no commutative law, since of
two operands that fault the left one is heard. Its other laws are those of the truth values, because
on both sides of each the operand that is looked at first decides alike, and behind a decision
nothing is looked at. Formulas of names alone have the truth value that their names give them.
-/

namespace TestSelection

/-! ### Sequential logic -/

namespace Sequential

variable {ε : Type} (p q r : Except ε Bool)

/-- The second outcome counts only if the first one is true. -/
def both : Except ε Bool := p >>= fun b => if b then q else .ok false

/-- The second outcome counts only if the first one is false. -/
def either : Except ε Bool := p >>= fun b => if b then .ok true else q

def negation : Except ε Bool := p.map (!·)

theorem negation_both : negation (both p q) = either (negation p) (negation q) := by
  rcases p with fault | _ | _ <;> rfl

theorem negation_either : negation (either p q) = both (negation p) (negation q) := by
  rcases p with fault | _ | _ <;> rfl

theorem both_assoc : both (both p q) r = both p (both q r) := by
  rcases p with fault | _ | _ <;> rfl

theorem either_assoc : either (either p q) r = either p (either q r) := by
  rcases p with fault | _ | _ <;> rfl

theorem both_either : both p (either q r) = either (both p q) (both p r) := by
  rcases p with fault | _ | _
  · rfl
  · rfl
  · rcases q with fault | _ | _ <;> rfl

theorem either_both : either p (both q r) = both (either p q) (either p r) := by
  rcases p with fault | _ | _
  · rfl
  · rcases q with fault | _ | _ <;> rfl
  · rfl

end Sequential

@[simp] theorem Value.truth_bool (b : Bool) : (bool b).truth = b := rfl

namespace Expr

variable (c : Context) (x y z : Expr)

/-! ### Operators -/

theorem holds_not : (not x).holds c = Sequential.negation (x.holds c) := by
  rw [holds, holds, eval_not]
  cases x.eval c <;> rfl

theorem holds_and : (binary .and x y).holds c = Sequential.both (x.holds c) (y.holds c) := by
  rw [holds, holds, holds, eval_binary]
  cases x.eval c with
  | error fault => rfl
  | ok left =>
      cases h : left.truth with
      | false => simp [settled?, h, Sequential.both, bind, Except.bind, pure, Except.pure]
      | true =>
          simp only [settled?, h, Sequential.both, bind, Except.bind, pure, Except.pure]
          cases y.eval c <;> rfl

theorem holds_or : (binary .or x y).holds c = Sequential.either (x.holds c) (y.holds c) := by
  rw [holds, holds, holds, eval_binary]
  cases x.eval c with
  | error fault => rfl
  | ok left =>
      cases h : left.truth with
      | false =>
          simp only [settled?, h, Sequential.either, bind, Except.bind, pure, Except.pure]
          cases y.eval c <;> rfl
      | true =>
          simp [settled?, h, Sequential.either, bind, Except.bind, pure, Except.pure]

/-- The laws of negation, of order and of distribution hold whatever the operands come to: both
sides have the same truth value or the same fault. -/
theorem logical_laws :
    (not (binary .and x y)).holds c = (binary .or (not x) (not y)).holds c ∧
    (not (binary .or x y)).holds c = (binary .and (not x) (not y)).holds c ∧
    (binary .and (binary .and x y) z).holds c = (binary .and x (binary .and y z)).holds c ∧
    (binary .or (binary .or x y) z).holds c = (binary .or x (binary .or y z)).holds c ∧
    (binary .and x (binary .or y z)).holds c
      = (binary .or (binary .and x y) (binary .and x z)).holds c ∧
    (binary .or x (binary .and y z)).holds c
      = (binary .and (binary .or x y) (binary .or x z)).holds c := by
  simp only [holds_not, holds_and, holds_or]
  exact ⟨Sequential.negation_both _ _, Sequential.negation_either _ _, Sequential.both_assoc _ _ _,
    Sequential.either_assoc _ _ _, Sequential.both_either _ _ _, Sequential.either_both _ _ _⟩

end Expr

/-! ### Formulas -/

/-- Names and truth values under logical operators. -/
inductive Formula
  | name (name : String)
  | bool (value : Bool)
  | not (operand : Formula)
  | and (left right : Formula)
  | or (left right : Formula)

namespace Formula

def expr : Formula → Expr
  | name n => .name n
  | bool b => .bool b
  | not f => .not f.expr
  | and f g => .binary .and f.expr g.expr
  | or f g => .binary .or f.expr g.expr

/-- The truth value of a formula whose names have the given ones. -/
def value (truth : String → Bool) : Formula → Bool
  | name n => truth n
  | bool b => b
  | not f => !f.value truth
  | and f g => f.value truth && g.value truth
  | or f g => f.value truth || g.value truth

/-- Where each name has a truth value, a formula has the one that follows from them. -/
theorem holds_expr {c : Context} {truth : String → Bool}
    (h : ∀ n, (Expr.name n).holds c = .ok (truth n)) (f : Formula) :
    f.expr.holds c = .ok (f.value truth) := by
  induction f with
  | name n => exact h n
  | bool b => rfl
  | not f ih => rw [expr, Expr.holds_not, ih]; rfl
  | and f g ihf ihg =>
      rw [expr, Expr.holds_and, ihf, ihg, value]
      cases f.value truth <;> rfl
  | or f g ihf ihg =>
      rw [expr, Expr.holds_or, ihf, ihg, value]
      cases f.value truth <;> rfl

end Formula

end TestSelection
