import Mathlib.Data.Set.Card
import TestSelection.Proofs.Filter.Memory

/-!
What a rule is asked when it decides on tests one after another with its memory. A call goes one of
three ways. Either there is an answer for the key of its test, or one is computed and kept, and both
times the rule is shown the answer; or the computation faults, and then nothing more happens. Since
answers are only kept where there is none, the first one that is computed for a key stays for good,
and the rule is not asked for another.
-/

namespace TestSelection

namespace KeyedRule

variable {κ σ : Type} [DecidableEq κ]

/-! ### Questions -/

/-- What a rule is asked, and what it makes of it. -/
inductive Question
  | compute (test : Description) (outcome : Except FilterFault Bool)
  | observe (test : Description) (answer : Bool) (outcome : Except FilterFault Unit)

/-- The same rule, which takes down what it is asked. -/
def noted (r : KeyedRule κ σ) : KeyedRule κ (σ × List Question) where
  key := r.key
  compute := fun (s, asked) test =>
    let (outcome, s) := r.compute s test
    (outcome, s, asked ++ [.compute test outcome])
  observe := fun (s, asked) test answer =>
    let (outcome, s) := r.observe s test answer
    (outcome, s, asked ++ [.observe test answer outcome])

/-- One call. -/
structure Call (κ : Type) where
  test : Description
  before : Memo κ
  asked : List Question
  result : Except FilterFault Bool
  after : Memo κ

def call (r : KeyedRule κ σ) (memo : Memo κ) (s : σ) (test : Description) : Call κ :=
  ⟨test, memo, (r.noted.accepts memo (s, []) test).2.2.2, (r.accepts memo s test).1,
    (r.accepts memo s test).2.1⟩

/-- The calls for tests one after another. -/
def calls (r : KeyedRule κ σ) : Memo κ → σ → List Description → List (Call κ)
  | _, _, [] => []
  | memo, s, test :: tests =>
    r.call memo s test
      :: r.calls (r.accepts memo s test).2.1 (r.accepts memo s test).2.2 tests

/-- The memory after tests have been decided on one after another. -/
def memoAfter (r : KeyedRule κ σ) : Memo κ → σ → List Description → Memo κ
  | memo, _, [] => memo
  | memo, s, test :: tests =>
    r.memoAfter (r.accepts memo s test).2.1 (r.accepts memo s test).2.2 tests

namespace Call

variable {c : Call κ}

def Computes (c : Call κ) (outcome : Except FilterFault Bool) : Prop :=
  ∃ test, Question.compute test outcome ∈ c.asked

/-- The ways of a call. -/
inductive Course (key : Description → κ) (c : Call κ) : Prop
  | found (answer : Bool) (outcome : Except FilterFault Unit)
      (kept : kept? c.before (key c.test) = some answer)
      (asked : c.asked = [.observe c.test answer outcome])
      (result : c.result = outcome.map fun _ => answer) (after : c.after = c.before)
  | computed (answer : Bool) (outcome : Except FilterFault Unit)
      (new : kept? c.before (key c.test) = none)
      (asked : c.asked = [.compute c.test (.ok answer), .observe c.test answer outcome])
      (result : c.result = outcome.map fun _ => answer)
      (after : c.after = (key c.test, answer) :: c.before)
  | faulted (fault : FilterFault) (new : kept? c.before (key c.test) = none)
      (asked : c.asked = [.compute c.test (.error fault)])
      (result : c.result = .error fault) (after : c.after = c.before)

end Call

/-! ### One call -/

/-- The ways of a call, for a rule and for the same rule when it takes down what it is asked. -/
theorem accepts_cases (r : KeyedRule κ σ) (memo : Memo κ) (s : σ) (test : Description) :
    (∃ answer outcome s', kept? memo (r.key test) = some answer ∧
      r.accepts memo s test = (outcome.map fun _ => answer, memo, s') ∧
      r.noted.accepts memo (s, []) test
        = (outcome.map fun _ => answer, memo, s', [.observe test answer outcome])) ∨
    (∃ answer outcome s', kept? memo (r.key test) = none ∧
      r.accepts memo s test = (outcome.map fun _ => answer, (r.key test, answer) :: memo, s') ∧
      r.noted.accepts memo (s, []) test
        = (outcome.map fun _ => answer, (r.key test, answer) :: memo, s',
          [.compute test (.ok answer), .observe test answer outcome])) ∨
    ∃ fault s', kept? memo (r.key test) = none ∧
      r.accepts memo s test = (.error fault, memo, s') ∧
      r.noted.accepts memo (s, []) test
        = (.error fault, memo, s', [.compute test (.error fault)]) := by
  cases hkept : kept? memo (r.key test) with
  | some answer =>
      have hnoted : kept? memo (r.noted.key test) = some answer := hkept
      exact Or.inl ⟨answer, _, _, rfl, accepts_found hkept, accepts_found hnoted⟩
  | none =>
      have hnoted : kept? memo (r.noted.key test) = none := hkept
      refine Or.inr ?_
      cases hcompute : r.compute s test with
      | mk outcome s' =>
          have hasked : r.noted.compute (s, []) test = (outcome, s', [.compute test outcome]) := by
            simp only [noted, hcompute, List.nil_append]
          cases outcome with
          | ok answer =>
              exact Or.inl ⟨answer, _, _, rfl, accepts_computed hkept hcompute,
                accepts_computed hnoted hasked⟩
          | error fault =>
              exact Or.inr ⟨fault, s', rfl, accepts_faulted hkept hcompute,
                accepts_faulted hnoted hasked⟩

theorem course_call (r : KeyedRule κ σ) (memo : Memo κ) (s : σ) (test : Description) :
    (r.call memo s test).Course r.key := by
  rcases accepts_cases r memo s test with ⟨answer, outcome, s', hkept, haccepts, hnoted⟩ |
    ⟨answer, outcome, s', hnew, haccepts, hnoted⟩ | ⟨fault, s', hnew, haccepts, hnoted⟩
  all_goals
    rw [call, haccepts, hnoted]
  · exact .found answer outcome hkept rfl rfl rfl
  · exact .computed answer outcome hnew rfl rfl rfl
  · exact .faulted fault hnew rfl rfl rfl

/-- To take down what it is asked makes no difference to what a rule decides and remembers. -/
theorem accepts_noted (r : KeyedRule κ σ) (memo : Memo κ) (s : σ) (test : Description) :
    r.noted.accepts memo (s, []) test = ((r.accepts memo s test).1, (r.accepts memo s test).2.1,
      (r.accepts memo s test).2.2, (r.call memo s test).asked) := by
  rcases accepts_cases r memo s test with ⟨answer, outcome, s', -, haccepts, hnoted⟩ |
    ⟨answer, outcome, s', -, haccepts, hnoted⟩ | ⟨fault, s', -, haccepts, hnoted⟩
  all_goals
    rw [call, haccepts, hnoted]

namespace Call

variable {key : Description → κ} {c : Call κ} {k : κ} {answer : Bool}

/-- An answer that is computed is a new one, and it is kept; otherwise the memory stays as it is. -/
theorem Course.after_cases (h : c.Course key) :
    (∃ answer, (∀ other, c.Computes (.ok other) ↔ other = answer) ∧
      kept? c.before (key c.test) = none ∧ c.after = (key c.test, answer) :: c.before) ∨
    (∀ other, ¬ c.Computes (.ok other)) ∧ c.after = c.before := by
  cases h with
  | found answer outcome kept asked result after =>
      exact Or.inr ⟨fun other => by simp [Computes, asked], after⟩
  | computed answer outcome new asked result after =>
      exact Or.inl ⟨answer, fun other => by simp [Computes, asked], new, after⟩
  | faulted fault new asked result after =>
      exact Or.inr ⟨fun other => by simp [Computes, asked], after⟩

/-- What is kept once stays. -/
theorem Course.kept_after (h : c.Course key) (hkept : kept? c.before k = some answer) :
    kept? c.after k = some answer := by
  rcases h.after_cases with ⟨computed, -, hnew, hafter⟩ | ⟨-, hafter⟩
  · have hne : k ≠ key c.test := by
      rintro rfl
      exact nomatch hnew.symm.trans hkept
    rw [hafter, kept?_cons, if_neg hne, hkept]
  · rw [hafter, hkept]

theorem Course.kept_of_computes (h : c.Course key) (hcomputes : c.Computes (.ok answer)) :
    kept? c.after (key c.test) = some answer := by
  rcases h.after_cases with ⟨computed, honly, -, hafter⟩ | ⟨hnone, -⟩
  · rw [hafter, kept?_cons, if_pos rfl, (honly answer).mp hcomputes]
  · exact absurd hcomputes (hnone answer)

/-- Where an answer is kept, nothing is computed. -/
theorem Course.of_kept (h : c.Course key) (hkept : kept? c.before (key c.test) = some answer) :
    ∃ outcome, c.asked = [.observe c.test answer outcome] ∧
      c.result = outcome.map fun _ => answer := by
  cases h with
  | found value outcome kept asked result after =>
      obtain rfl := Option.some.inj (kept.symm.trans hkept)
      exact ⟨outcome, asked, result⟩
  | computed value outcome new asked result after => exact nomatch new.symm.trans hkept
  | faulted fault new asked result after => exact nomatch new.symm.trans hkept

/-- A key has an answer after a call if it had one before or one was computed. -/
theorem Course.mem_keys_after (h : c.Course key) :
    k ∈ c.after.map Prod.fst ↔
      k ∈ c.before.map Prod.fst ∨ key c.test = k ∧ ∃ answer, c.Computes (.ok answer) := by
  rcases h.after_cases with ⟨computed, honly, -, hafter⟩ | ⟨hnone, hafter⟩
  · have hsome : ∃ answer, c.Computes (.ok answer) := ⟨computed, (honly computed).mpr rfl⟩
    rw [hafter, List.map_cons, List.mem_cons, or_comm, eq_comm (a := k), and_iff_left hsome]
  · rw [hafter]
    exact (or_iff_left fun ⟨_, answer, hcomputes⟩ => hnone answer hcomputes).symm

theorem Course.nodup_after (h : c.Course key) (hnodup : (c.before.map Prod.fst).Nodup) :
    (c.after.map Prod.fst).Nodup := by
  rcases h.after_cases with ⟨computed, -, hnew, hafter⟩ | ⟨-, hafter⟩
  · rw [hafter, List.map_cons, List.nodup_cons]
    exact ⟨kept?_eq_none_iff.mp hnew, hnodup⟩
  · rwa [hafter]

end Call

/-! ### All calls -/

section

variable {r : KeyedRule κ σ} {memo : Memo κ} {s : σ} {tests : List Description} {c : Call κ} {k : κ}
  {answer : Bool}

theorem course_of_mem_calls (h : c ∈ r.calls memo s tests) : c.Course r.key := by
  induction tests generalizing memo s with
  | nil => exact nomatch h
  | cons test tests ih =>
      rcases List.mem_cons.mp h with rfl | h
      · exact course_call r memo s test
      · exact ih h

theorem kept_of_mem_calls (hkept : kept? memo k = some answer) (h : c ∈ r.calls memo s tests) :
    kept? c.before k = some answer := by
  induction tests generalizing memo s with
  | nil => exact nomatch h
  | cons test tests ih =>
      rcases List.mem_cons.mp h with rfl | h
      · exact hkept
      · exact ih ((course_call r memo s test).kept_after hkept) h

/-- After an answer has been computed for a key, it is the one for the tests with this key. -/
theorem pairwise_calls (r : KeyedRule κ σ) (memo : Memo κ) (s : σ) (tests : List Description) :
    (r.calls memo s tests).Pairwise fun earlier later =>
      ∀ answer, earlier.Computes (.ok answer) → r.key later.test = r.key earlier.test →
        ∃ outcome, later.asked = [.observe later.test answer outcome] ∧
          later.result = outcome.map fun _ => answer := by
  induction tests generalizing memo s with
  | nil => exact .nil
  | cons test tests ih =>
      refine .cons (fun later hlater answer hcomputes hkey => ?_) (ih _ _)
      have hkept := (course_call r memo s test).kept_of_computes hcomputes
      have hbefore := kept_of_mem_calls hkept hlater
      rw [← hkey] at hbefore
      exact (course_of_mem_calls hlater).of_kept hbefore

theorem nodup_memoAfter (hnodup : (memo.map Prod.fst).Nodup) :
    ((r.memoAfter memo s tests).map Prod.fst).Nodup := by
  induction tests generalizing memo s with
  | nil => exact hnodup
  | cons test tests ih => exact ih ((course_call r memo s test).nodup_after hnodup)

theorem mem_keys_memoAfter :
    k ∈ (r.memoAfter memo s tests).map Prod.fst ↔
      k ∈ memo.map Prod.fst ∨
        ∃ c ∈ r.calls memo s tests, r.key c.test = k ∧ ∃ answer, c.Computes (.ok answer) := by
  induction tests generalizing memo s with
  | nil => simp [memoAfter, calls]
  | cons test tests ih =>
      have hcall := (course_call r memo s test).mem_keys_after (k := k)
      rw [memoAfter, ih, calls, List.exists_mem_cons_iff, ← or_assoc]
      exact or_congr_left hcall

end

/-- A rule with a memory that is empty at first, over any tests one after another. Each call goes
one of its three ways: the rule is shown the answer that is found or computed, once and with the test
of the call, and a fault of the computation is passed on and leaves the memory as it is. When an
answer has been computed for a key, nothing is computed for it any more, and it is the answer of all
later calls. The memory has as many answers as there are keys for which one was computed. -/
theorem calls_memoize (r : KeyedRule κ σ) (s : σ) (tests : List Description) :
    let calls := r.calls [] s tests
    (∀ memo s test, r.noted.accepts memo (s, []) test = ((r.accepts memo s test).1,
      (r.accepts memo s test).2.1, (r.accepts memo s test).2.2, (r.call memo s test).asked)) ∧
    (∀ c ∈ calls, c.Course r.key) ∧
    (calls.Pairwise fun earlier later =>
      ∀ answer, earlier.Computes (.ok answer) → r.key later.test = r.key earlier.test →
        ∃ outcome, later.asked = [.observe later.test answer outcome] ∧
          later.result = outcome.map fun _ => answer) ∧
    (r.memoAfter [] s tests).length
      = Set.ncard {k | ∃ c ∈ calls, r.key c.test = k ∧ ∃ answer, c.Computes (.ok answer)} := by
  intro calls
  refine ⟨accepts_noted r, fun c => course_of_mem_calls, pairwise_calls r [] s tests, ?_⟩
  have hkeys : {k | ∃ c ∈ calls, r.key c.test = k ∧ ∃ answer, c.Computes (.ok answer)}
      = (((r.memoAfter [] s tests).map Prod.fst).toFinset : Set κ) := by
    ext k
    rw [Finset.mem_coe, List.mem_toFinset, mem_keys_memoAfter]
    simp [calls]
  have hnodup : ((r.memoAfter [] s tests).map Prod.fst).Nodup :=
    nodup_memoAfter (by rw [List.map_nil]; exact List.nodup_nil)
  rw [hkeys, Set.ncard_coe_finset, List.toFinset_card_of_nodup hnodup, List.length_map]

/-- A rule without an answer at first, which faults at the answer for one of the tests. -/
example :
    let rule : KeyedRule Nat (List Bool) :=
      { key := Description.maxTimeout
        compute := fun answers test =>
          match answers with
          | [] => (.error ⟨"rule", test.url, "no answer"⟩, [true, false])
          | answer :: rest => (.ok answer, rest)
        observe := fun answers test _ =>
          (if test.url = "d" then .error ⟨"rule", test.url, "refused"⟩ else .ok (), answers) }
    let test (name : String) (seconds : Nat) : Description :=
      { Description.new ⟨name⟩ name 1 none with maxTimeout := seconds }
    let tests := [test "a" 120, test "b" 120, test "c" 121, test "d" 120, test "e" 121]
    (rule.calls [] [] tests).map Call.result
        = [.error ⟨"rule", "a", "no answer"⟩, .ok true, .ok false,
          .error ⟨"rule", "d", "refused"⟩, .ok false] ∧
      rule.memoAfter [] [] tests = [(121, false), (120, true)] := by
  decide +kernel

end KeyedRule

end TestSelection
