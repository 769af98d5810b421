import TestSelection.Expr.Eval
import TestSelection.Proofs.Except
import TestSelection.Proofs.Expr.Names

/-!
What an evaluation asks of its context. An operator looks at its right operand only if its left one
does not settle the result, so which facts are asked for depends on the facts themselves. The result
is settled by the facts that are asked for: a context with the same facts there has the same result.
All of them are facts of names in the expression, and if there is a value, then each of them could
be determined. The only fault that speaks of a fact is that of a fact which has been asked for.
-/

namespace TestSelection

/-- The fact that an expression finds under a name: one without an entry has the value `null`. -/
def Context.fact (c : Context) (name : String) : Fact := (c.get? name).getD (.value nullText)

/-- A context has the entries of another one, except where that one does not know a fact: there it
may have any entry, or none. -/
def Context.Revises (revised c : Context) : Prop :=
  ∀ name, revised.get? name = c.get? name ∨ ∃ reason, c.get? name = some (.unknown reason)

namespace Expr

variable {c c' : Context} {e : Expr}

/-! ### Steps -/

/-- The result of an operator that its left operand settles, whatever stands on the right. -/
def settled? (op : BinaryOp) (left : Value) : Option (Except Fault Value) :=
  match op with
  | .and => if left.truth then none else some (.ok (.bool false))
  | .or => if left.truth then some (.ok (.bool true)) else none
  | .eq | .ne => none
  | op => if left.number?.isSome then none else some (.error (.notNumeric op left.render))

/-- The result of an operator that its left operand does not settle. -/
def join (op : BinaryOp) (left right : Value) : Except Fault Value :=
  match op with
  | .and | .or => .ok (.bool right.truth)
  | .eq => .ok (.bool (left.same right))
  | .ne => .ok (.bool (!left.same right))
  | op => do
    let a ← left.toNumber op
    let b ← right.toNumber op
    compute op a b

theorem eval_binary (c : Context) (op : BinaryOp) (l r : Expr) :
    (binary op l r).eval c =
      l.eval c >>= fun left => (settled? op left).getD (r.eval c >>= join op left) := by
  cases hl : l.eval c with
  | error fault => cases op <;> simp only [eval, hl, bind, Except.bind]
  | ok left =>
      cases op with
      | and | or =>
          cases h : left.truth <;>
            simp [eval, hl, settled?, join, h, bind, Except.bind, pure, Except.pure]
      | eq | ne =>
          rw [eval, hl]
          rfl
      | lt | le | gt | ge | add | sub | mul | div | rem =>
          simp only [eval, hl, settled?, join, Value.toNumber, bind, Except.bind]
          cases left.number? <;> rfl

theorem eval_not (c : Context) (e : Expr) :
    (not e).eval c = e.eval c >>= fun v => .ok (.bool (!v.truth)) := rfl

theorem eval_neg (c : Context) (e : Expr) :
    (neg e).eval c = e.eval c >>= fun v => v.toNumber .sub >>= fun d => .ok (.number (-d)) := rfl

/-! ### The facts asked for -/

/-- Whether an operator looks at its right operand. -/
def looksRight (op : BinaryOp) : Except Fault Value → Bool
  | .ok left => (settled? op left).isNone
  | .error _ => false

/-- The names whose facts an evaluation asks for, in order. -/
def asked (c : Context) : Expr → List String
  | name n => [n]
  | text _ | number _ | bool _ => []
  | not e | neg e => e.asked c
  | binary op l r => l.asked c ++ if looksRight op (l.eval c) then r.asked c else []

theorem mem_asked_binary {op : BinaryOp} {l r : Expr} {n : String} :
    n ∈ (binary op l r).asked c ↔
      n ∈ l.asked c ∨ looksRight op (l.eval c) = true ∧ n ∈ r.asked c := by
  rw [asked, List.mem_append]
  split <;> simp [*]

/-- Only names in the expression are asked for. -/
theorem contains_names_of_mem_asked {n : String} (h : n ∈ e.asked c) :
    e.names.contains n = true := by
  induction e with
  | name m => exact contains_names_name.mpr (List.mem_singleton.mp h).symm
  | text | number | bool => exact nomatch h
  | not e ih | neg e ih => exact ih h
  | binary op l r ihl ihr =>
      rw [contains_names_binary]
      rcases mem_asked_binary.mp h with h | ⟨-, h⟩
      · exact Or.inl (ihl h)
      · exact Or.inr (ihr h)

/-- A context with the same facts where the evaluation asks for them has the same result. -/
theorem eval_eq_of_asked (h : ∀ n ∈ e.asked c, lookUp c' n = lookUp c n) :
    e.eval c' = e.eval c := by
  induction e with
  | name n => exact h n List.mem_cons_self
  | text | number | bool => rfl
  | not e ih | neg e ih =>
      have he := ih h
      simp only [eval_not, eval_neg, he]
  | binary op l r ihl ihr =>
      have hl := ihl fun n hn => h n (mem_asked_binary.mpr (Or.inl hn))
      rw [eval_binary, eval_binary, hl]
      cases hleft : l.eval c with
      | error fault => rfl
      | ok left =>
          cases hsettled : settled? op left with
          | some result => simp [hsettled, bind, Except.bind]
          | none =>
              have hlooks : looksRight op (l.eval c) = true := by simp [hleft, looksRight, hsettled]
              rw [ihr fun n hn => h n (mem_asked_binary.mpr (Or.inr ⟨hlooks, hn⟩))]

/-- Behind a value stand values only: a fact that could not be determined has not been asked for. -/
theorem lookUp_of_eval_eq_ok {v : Value} (h : e.eval c = .ok v) :
    ∀ n ∈ e.asked c, ∃ w, lookUp c n = .ok w := by
  induction e generalizing v with
  | name m =>
      intro n hn
      obtain rfl := List.mem_singleton.mp hn
      exact ⟨v, h⟩
  | text | number | bool => exact nofun
  | not e ih =>
      rw [eval_not] at h
      obtain ⟨w, hw, -⟩ := bind_eq_ok.mp h
      exact ih hw
  | neg e ih =>
      rw [eval_neg] at h
      obtain ⟨w, hw, -⟩ := bind_eq_ok.mp h
      exact ih hw
  | binary op l r ihl ihr =>
      rw [eval_binary] at h
      obtain ⟨left, hleft, h⟩ := bind_eq_ok.mp h
      intro n hn
      rcases mem_asked_binary.mp hn with hn | ⟨hlooks, hn⟩
      · exact ihl hleft n hn
      · rw [hleft, looksRight, Option.isNone_iff_eq_none] at hlooks
        rw [hlooks] at h
        obtain ⟨right, hright, -⟩ := bind_eq_ok.mp h
        exact ihr hright n hn

/-! ### Faults -/

/-- A computation on values does not complain about a fact. -/
def Factless {α : Type} (x : Except Fault α) : Prop :=
  ∀ name reason, x ≠ .error (.undetermined name reason)

theorem factless_toNumber (op : BinaryOp) (v : Value) : Factless (v.toNumber op) := by
  rw [Value.toNumber]
  cases v.number? <;> exact nofun

theorem factless_compute (op : BinaryOp) (a b : Decimal) : Factless (compute op a b) := by
  cases op with
  | div | rem =>
      rw [compute]
      split <;> exact nofun
  | _ => exact nofun

theorem factless_join (op : BinaryOp) (left right : Value) : Factless (join op left right) := by
  intro name reason h
  cases op with
  | and | or | eq | ne => exact nomatch h
  | _ =>
      rcases bind_eq_error.mp h with h | ⟨a, -, h⟩
      · exact factless_toNumber _ left name reason h
      · rcases bind_eq_error.mp h with h | ⟨b, -, h⟩
        · exact factless_toNumber _ right name reason h
        · exact factless_compute _ a b name reason h

theorem factless_of_settled? {op : BinaryOp} {left : Value} {result : Except Fault Value}
    (h : settled? op left = some result) : Factless result := by
  cases op with
  | eq | ne => exact nomatch h
  | _ =>
      simp only [settled?] at h
      split at h <;> cases h
      exact nofun

/-- A fault that speaks of a fact tells of one that has been asked for, and of it the truth. -/
theorem asked_of_eval_eq_error {name reason : String}
    (h : e.eval c = .error (.undetermined name reason)) :
    name ∈ e.asked c ∧ c.get? name = some (.unknown reason) := by
  induction e with
  | name n =>
      rw [eval, lookUp] at h
      split at h
      · exact nomatch h
      · rename_i hget
        cases h
        exact ⟨List.mem_cons_self, hget⟩
      · exact nomatch h
  | text | number | bool => exact nomatch h
  | not e ih =>
      rw [eval_not] at h
      rcases bind_eq_error.mp h with h | ⟨v, -, h⟩
      · exact ih h
      · exact nomatch h
  | neg e ih =>
      rw [eval_neg] at h
      rcases bind_eq_error.mp h with h | ⟨v, -, h⟩
      · exact ih h
      · rcases bind_eq_error.mp h with h | ⟨d, -, h⟩
        · exact absurd h (factless_toNumber .sub v name reason)
        · exact nomatch h
  | binary op l r ihl ihr =>
      rw [eval_binary] at h
      rw [mem_asked_binary]
      rcases bind_eq_error.mp h with h | ⟨left, hleft, h⟩
      · obtain ⟨hasked, hget⟩ := ihl h
        exact ⟨Or.inl hasked, hget⟩
      · cases hsettled : settled? op left with
        | some result =>
            rw [hsettled] at h
            exact absurd h (factless_of_settled? hsettled name reason)
        | none =>
            rw [hsettled] at h
            rcases bind_eq_error.mp h with h | ⟨right, -, h⟩
            · obtain ⟨hasked, hget⟩ := ihr h
              exact ⟨Or.inr ⟨by simp [hleft, looksRight, hsettled], hasked⟩, hget⟩
            · exact absurd h (factless_join op left right name reason)

/-! ### Contexts -/

theorem lookUp_eq (c : Context) (n : String) :
    lookUp c n = match c.fact n with
      | .value t => .ok (.text t)
      | .unknown reason => .error (.undetermined n reason) := by
  rw [lookUp, Context.fact]
  cases c.get? n with
  | none => rfl
  | some fact => cases fact <;> rfl

/-- An expression holds or faults alike in two contexts that give its names the same facts, where a
name without an entry has the value `null`. -/
theorem holds_eq_of_fact_eq
    (h : ∀ name, e.names.contains name = true → c.fact name = c'.fact name) :
    e.holds c = e.holds c' := by
  have heval : e.eval c = e.eval c' := by
    refine eval_eq_of_asked fun n hn => ?_
    rw [lookUp_eq, lookUp_eq, h n (contains_names_of_mem_asked hn)]
  rw [holds, holds, heval]

/-- An entry that says no more than that there is none, and one of a name that is not referred
to. -/
theorem holds_eq_of_fact_eq_null :
    let e : Expr := .binary .and (.binary .eq (.name "a") (.name "null")) (.name "b")
    let c := Context.empty.set "b" "yes"
    let c' := (c.set "a" "null").setUnknown "d" "no access"
    c.get? "a" = none ∧ c'.get? "a" = some (.value "null") ∧
      (∀ name, e.names.contains name = true → c.fact name = c'.fact name) ∧
      e.holds c = e.holds c' ∧ e.holds c = .ok true := by
  intro e c c'
  have hnames : ∀ name ∈ e.names.names, c.fact name = c'.fact name := by decide +kernel
  have hfacts : ∀ name, e.names.contains name = true → c.fact name = c'.fact name :=
    fun name hname => hnames name (Table.mem_names_iff.mpr hname)
  exact ⟨by decide +kernel, by decide +kernel, hfacts, holds_eq_of_fact_eq hfacts,
    by decide +kernel⟩

theorem holds_eq_ok {b : Bool} : e.holds c = .ok b ↔ ∃ v, e.eval c = .ok v ∧ v.truth = b := by
  rw [holds, bind_eq_ok]
  simp [pure, Except.pure]

theorem holds_eq_error {fault : Fault} : e.holds c = .error fault ↔ e.eval c = .error fault := by
  rw [holds, bind_eq_error]
  simp [pure, Except.pure]

/-- What has been determined of a fact that gives a value does not change in a revised context. -/
theorem lookUp_of_revises (h : c'.Revises c) {n : String} {w : Value} (hn : lookUp c n = .ok w) :
    lookUp c' n = lookUp c n := by
  rcases h n with hget | ⟨reason, hget⟩
  · rw [lookUp, lookUp, hget]
  · rw [lookUp, hget] at hn
    exact nomatch hn

/-- A fact that could not be determined does not decide silently: where there is a result, it stays
the same whatever is put in the place of such facts, and a fault that speaks of a fact tells of one
that is referred to, and why it could not be determined. -/
theorem undetermined_never_decides (e : Expr) (c : Context) :
    (∀ b, e.holds c = .ok b → ∀ c' : Context, c'.Revises c → e.holds c' = .ok b) ∧
    ∀ name reason, e.holds c = .error (.undetermined name reason) →
      e.names.contains name = true ∧ c.get? name = some (.unknown reason) := by
  constructor
  · intro b h c' hrevises
    obtain ⟨v, hv, rfl⟩ := holds_eq_ok.mp h
    have hsame : e.eval c' = e.eval c := eval_eq_of_asked fun n hn => by
      obtain ⟨w, hw⟩ := lookUp_of_eval_eq_ok hv n hn
      exact lookUp_of_revises hrevises hw
    exact holds_eq_ok.mpr ⟨v, hsame.trans hv, rfl⟩
  · intro name reason h
    obtain ⟨hasked, hget⟩ := asked_of_eval_eq_error (holds_eq_error.mp h)
    exact ⟨contains_names_of_mem_asked hasked, hget⟩

/-- A fact that could not be determined is passed over behind a disjunct that holds, but not behind
one that does not. -/
theorem undetermined_never_decides_disjunction :
    let e : Expr := .binary .or (.name "a") (.name "b")
    let c := (Context.empty.set "a" "yes").setUnknown "b" "no access"
    let c' := c.set "b" "false"
    let other := Context.empty.setUnknown "b" "no access"
    e.holds c = .ok true ∧ c'.Revises c ∧ e.holds c' = .ok true ∧
      e.holds other = .error (.undetermined "b" "no access") ∧
      e.names.contains "b" = true ∧ other.get? "b" = some (.unknown "no access") := by
  intro e c c' other
  have hholds : e.holds c = .ok true := by decide +kernel
  have hrevises : c'.Revises c := by
    intro name
    have hget : c'.get? name = if "b" = name then some (.value "false") else c.get? name :=
      c.get?_put "b" name (.value "false")
    by_cases hname : "b" = name
    · exact Or.inr ⟨"no access", hname ▸ by decide +kernel⟩
    · exact Or.inl (hget.trans (if_neg hname))
  have hfault : e.holds other = .error (.undetermined "b" "no access") := by decide +kernel
  exact ⟨hholds, hrevises, (undetermined_never_decides e c).1 true hholds c' hrevises, hfault,
    (undetermined_never_decides e other).2 "b" "no access" hfault⟩

end Expr

end TestSelection
