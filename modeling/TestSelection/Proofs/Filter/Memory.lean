import TestSelection.Filter.Chain
import TestSelection.Proofs.Expr.Cache
import TestSelection.Proofs.Table

/-!
What the filters remember never changes what they answer. Each filter asks a question that looks at
the test alone; a filter with a memory asks it once for each key. A memory is kept right on a domain
of tests, on which the key of a test has to determine the answer. For the lists and the earlier
outcomes, which go by the URL of a test, this takes tests with one URL to be of one file; the other
keys determine the answer everywhere.
-/

namespace TestSelection

namespace KeyedRule

variable {κ σ : Type} [DecidableEq κ]

/-- The answer that is kept for a key. -/
def kept? (memo : Memo κ) (k : κ) : Option Bool := memo.lookup k

theorem kept?_cons (memo : Memo κ) (k k' : κ) (answer : Bool) :
    kept? ((k, answer) :: memo) k' = if k' = k then some answer else kept? memo k' := by
  rw [kept?, List.lookup_cons]
  by_cases h : k' = k
  · rw [beq_iff_eq.mpr h, if_pos h]
  · rw [beq_false_of_ne h, if_neg h]
    rfl

theorem kept?_eq_none_iff {memo : Memo κ} {k : κ} :
    kept? memo k = none ↔ k ∉ memo.map Prod.fst := by
  rw [kept?, List.lookup_eq_none_iff]
  simp only [bne_iff_ne, List.mem_map, not_exists, not_and]
  exact forall₂_congr fun entry _ => ne_comm

section

variable {r : KeyedRule κ σ} {memo : Memo κ} {s s' : σ} {test : Description} {answer : Bool}
  {fault : FilterFault}

omit [DecidableEq κ] in
theorem show?_eq (r : KeyedRule κ σ) (s : σ) (test : Description) (answer : Bool) :
    r.show? s test answer
      = ((r.observe s test answer).1.map fun _ => answer, (r.observe s test answer).2) := by
  unfold show?
  obtain ⟨outcome, s'⟩ := r.observe s test answer
  cases outcome <;> rfl

theorem accepts_found (h : kept? memo (r.key test) = some answer) :
    r.accepts memo s test = ((r.observe s test answer).1.map fun _ => answer, memo,
      (r.observe s test answer).2) := by
  rw [kept?] at h
  rw [accepts, h]
  simp only [show?_eq]

theorem accepts_computed (h : kept? memo (r.key test) = none)
    (hcompute : r.compute s test = (.ok answer, s')) :
    r.accepts memo s test = ((r.observe s' test answer).1.map fun _ => answer,
      (r.key test, answer) :: memo, (r.observe s' test answer).2) := by
  rw [kept?] at h
  rw [accepts, h]
  simp only [hcompute, show?_eq]

theorem accepts_faulted (h : kept? memo (r.key test) = none)
    (hcompute : r.compute s test = (.error fault, s')) :
    r.accepts memo s test = (.error fault, memo, s') := by
  rw [kept?] at h
  rw [accepts, h]
  simp only [hcompute]

theorem accepts_of_kept (hkept : kept? memo (r.key test) = some answer)
    (hobserve : r.observe s test answer = (.ok (), s')) :
    r.accepts memo s test = (.ok answer, memo, s') := by
  rw [accepts_found hkept, hobserve]
  rfl

theorem accepts_of_new {s'' : σ} (hnew : kept? memo (r.key test) = none)
    (hcompute : r.compute s test = (.ok answer, s'))
    (hobserve : r.observe s' test answer = (.ok (), s'')) :
    r.accepts memo s test = (.ok answer, (r.key test, answer) :: memo, s'') := by
  rw [accepts_computed hnew hcompute, hobserve]
  rfl

end

variable {D : Description → Prop} {key : Description → κ} {decision : Description → Bool}
  {memo : Memo κ} {test : Description}

/-- On a domain, tests with one key get one decision. -/
def Determines (D : Description → Prop) (key : Description → κ) (decision : Description → Bool) :
    Prop :=
  ∀ s t, D s → D t → key s = key t → decision s = decision t

/-- Each answer that is kept is the decision on all tests of the domain with its key. -/
def Recalls (D : Description → Prop) (key : Description → κ) (decision : Description → Bool)
    (memo : Memo κ) : Prop :=
  ∀ t, D t → ∀ answer, kept? memo (key t) = some answer → answer = decision t

theorem recalls_nil : Recalls D key decision [] :=
  fun _ _ _ h => nomatch h

theorem Recalls.cons (h : Recalls D key decision memo) (hkey : Determines D key decision)
    (htest : D test) : Recalls D key decision ((key test, decision test) :: memo) := by
  intro t ht answer hanswer
  rw [kept?_cons] at hanswer
  split at hanswer
  · rename_i heq
    obtain rfl := Option.some.inj hanswer
    exact hkey test t htest ht heq.symm
  · exact h t ht answer hanswer

/-- A rule that looks at the test alone decides with its memory as it would without it. -/
theorem accepts_pure (hkey : Determines D key decision) (h : Recalls D key decision memo)
    (htest : D test) :
    ∃ memo', (pure key decision).accepts memo () test = (.ok (decision test), memo', ()) ∧
      Recalls D key decision memo' := by
  cases hkept : kept? memo (key test) with
  | some answer =>
      obtain rfl := h test htest answer hkept
      exact ⟨memo, accepts_of_kept hkept rfl, h⟩
  | none => exact ⟨_, accepts_of_new hkept rfl rfl, h.cons hkey htest⟩

end KeyedRule

/-! ### Requirements -/

namespace Decision

/-- Why the requirement that a text states cannot be evaluated. -/
def faultOf? (context : Context) (text : String) : Option String :=
  match Expr.parse text with
  | .error error => some error.message
  | .ok e =>
    match e.holds context with
    | .error fault => some fault.message
    | .ok _ => none

def requirementFault? (context : Context) (test : Description) : Option String :=
  test.requires.bind (faultOf? context)

/-- Whether the requirement of a test holds; one that cannot be evaluated counts as met. -/
def permits (context : Context) (test : Description) : Bool :=
  match requires context test with
  | .ok answer => answer
  | .error _ => true

theorem determines_permits (D : Description → Prop) (context : Context) :
    KeyedRule.Determines D Description.requires (permits context) := by
  intro s t _ _ heq
  simp only [permits, requires, heq]

theorem permits_of_requirementFault? {context : Context} {test : Description} {reason : String}
    (h : requirementFault? context test = some reason) : permits context test = true := by
  obtain ⟨text, htext, hfault⟩ := Option.bind_eq_some_iff.mp h
  rw [faultOf?] at hfault
  simp only [permits, requires, htext, Expr.textHolds]
  cases hparse : Expr.parse text with
  | error error => rfl
  | ok e =>
      rw [hparse] at hfault
      dsimp only at hfault ⊢
      cases hholds : e.holds context with
      | error fault => rfl
      | ok answer =>
          rw [hholds] at hfault
          exact nomatch hfault

end Decision

namespace RequirementRecord

open KeyedRule

variable {context : Context} {memo : Memo (Option String)} {exprs : ExprCache}
  {record : RequirementRecord} {test : Description}

/-- Records why a text cannot be evaluated, if so. -/
def noteText (context : Context) (record : RequirementRecord) (text : String) :
    RequirementRecord :=
  match Decision.faultOf? context text with
  | some reason => { record with byText := record.byText.insert text reason }
  | none => record

/-- Records under the URL of a test what is wrong with it, if anything is. -/
def noteFault (fault? : Description → Option String) (faults : Table String)
    (test : Description) : Table String :=
  match fault? test with
  | some reason => faults.insert test.url reason
  | none => faults

/-- Records for a test why its requirement cannot be evaluated, if so. -/
def noteTest (context : Context) (record : RequirementRecord) (test : Description) :
    RequirementRecord :=
  { record with byUrl := noteFault (Decision.requirementFault? context) record.byUrl test }

theorem byUrl_noteText (text : String) : (record.noteText context text).byUrl = record.byUrl := by
  rw [noteText]
  split <;> rfl

theorem get?_byText_noteText (text other : String) :
    (record.noteText context text).byText.get? other
      = if text = other then (Decision.faultOf? context other).or (record.byText.get? other)
        else record.byText.get? other := by
  rw [noteText]
  by_cases h : text = other
  · subst h
    cases Decision.faultOf? context text with
    | none => simp
    | some reason => simp [Table.get?_insert]
  · cases Decision.faultOf? context text with
    | none => simp [h]
    | some reason => simp [Table.get?_insert, h]

/-- The memory of the filter for requirements: the answers kept are right, and of the texts that
have been asked for, those that cannot be evaluated are recorded. -/
structure Tracks (context : Context) (memo : Memo (Option String)) (record : RequirementRecord) :
    Prop where
  recalls : Recalls (fun _ => True) Description.requires (Decision.permits context) memo
  byText : ∀ text, record.byText.get? text
    = (kept? memo (some text)).bind fun _ => Decision.faultOf? context text

theorem tracks_empty (context : Context) : Tracks context [] empty :=
  ⟨recalls_nil, fun _ => rfl⟩

theorem Tracks.cons (h : Tracks context memo record) {text : String}
    (hnew : kept? memo (some text) = none) (htext : test.requires = some text) :
    Tracks context ((some text, Decision.permits context test) :: memo)
      (record.noteText context text) := by
  refine ⟨htext ▸ h.recalls.cons (Decision.determines_permits _ context) trivial, fun other => ?_⟩
  rw [get?_byText_noteText, kept?_cons, h.byText other]
  by_cases heq : text = other
  · subst heq
    simp [hnew]
  · have hne : some other ≠ some text := fun hsome => heq (Option.some.inj hsome).symm
    rw [if_neg heq, if_neg hne]

/-- What is computed for a new text is whether it is met, and a fault is recorded. -/
theorem Tracks.compute (h : Tracks context memo record) (hexprs : exprs.Faithful)
    (hnew : kept? memo test.requires = none) :
    ∃ exprs' record', (requiresRule context).compute (exprs, record) test
        = (.ok (Decision.permits context test), exprs', record') ∧ exprs'.Faithful ∧
      Tracks context ((test.requires, Decision.permits context test) :: memo) record' ∧
      record'.byUrl = record.byUrl := by
  cases htext : test.requires with
  | none =>
      refine ⟨exprs, record, ?_, hexprs, ⟨?_, fun text => ?_⟩, rfl⟩
      · simp only [requiresRule, Decision.permits, Decision.requires, htext]
      · exact htext ▸ h.recalls.cons (Decision.determines_permits _ context) trivial
      · rw [kept?_cons, if_neg (Option.some_ne_none text), h.byText text]
  | some text =>
      obtain ⟨hanswer, hfaithful⟩ := hexprs.getOrParse text
      refine ⟨(exprs.getOrParse text).2, record.noteText context text, ?_, hfaithful,
        h.cons (htext ▸ hnew) htext, byUrl_noteText text⟩
      simp only [requiresRule, noteText, Decision.permits, Decision.requires, Decision.faultOf?,
        Expr.textHolds, htext]
      rw [← hanswer]
      cases (exprs.getOrParse text).1 with
      | error error => rfl
      | ok entry =>
          dsimp only [Except.map]
          cases entry.expr.holds context <;> rfl

/-- With every answer the fault of the test's text is recorded for the test. -/
theorem Tracks.observe (h : Tracks context memo record) (exprs : ExprCache) (answer : Bool)
    (hasked : ∀ text, test.requires = some text → kept? memo (some text) ≠ none) :
    (requiresRule context).observe (exprs, record) test answer
      = (.ok (), exprs, record.noteTest context test) := by
  simp only [requiresRule, noteTest, noteFault, Decision.requirementFault?]
  cases htext : test.requires with
  | none => rfl
  | some text =>
      obtain ⟨kept, hkept⟩ := Option.ne_none_iff_exists'.mp (hasked text htext)
      have hfault := h.byText text
      rw [hkept, Option.bind_some] at hfault
      rw [Option.bind_some, Option.bind_some, hfault]
      cases Decision.faultOf? context text <;> rfl

theorem Tracks.note (h : Tracks context memo record) :
    Tracks context memo (record.noteTest context test) :=
  ⟨h.recalls, h.byText⟩

/-- The filter for requirements lets a test pass if its requirement is met or faults, and records
the fault under the URL of the test, whether or not the text has been asked for before. -/
theorem Tracks.accepts (h : Tracks context memo record) (hexprs : exprs.Faithful)
    (test : Description) :
    ∃ memo' exprs' record', (requiresRule context).accepts memo (exprs, record) test
        = (.ok (Decision.permits context test), memo', exprs', record') ∧
      exprs'.Faithful ∧ Tracks context memo' record' ∧
      record'.byUrl = noteFault (Decision.requirementFault? context) record.byUrl test := by
  cases hkept : kept? memo test.requires with
  | some answer =>
      obtain rfl := h.recalls test trivial answer hkept
      have hobserve := h.observe exprs (Decision.permits context test)
        fun text htext => by rw [← htext, hkept]; exact Option.some_ne_none _
      exact ⟨memo, exprs, _, accepts_of_kept hkept hobserve, hexprs, h.note, rfl⟩
  | none =>
      obtain ⟨exprs', record', hcompute, hfaithful, htracks, hurl⟩ := h.compute hexprs hkept
      have hobserve := htracks.observe exprs' (Decision.permits context test)
        fun text htext => by rw [kept?_cons, if_pos htext.symm]; exact Option.some_ne_none _
      exact ⟨_, exprs', _, accepts_of_new hkept hcompute hobserve, hfaithful, htracks.note,
        congrArg (noteFault (Decision.requirementFault? context) · test) hurl⟩

end RequirementRecord

end TestSelection
