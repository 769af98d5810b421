import TestSelection.Proofs.Filter.Memory

/-!
The questions that filters ask, without anything remembered. What becomes of a test is settled by
the first question that is answered with no or cannot be answered. A filter whose memory is right
answers its question and keeps its memory right; so a chain of filters gives each test what the
questions alone give it, whatever the chain has been asked before.
-/

namespace TestSelection

/-- A question that a filter asks of tests. -/
inductive Criterion
  | modules (installed : Option NameSet)
  | requires (context : Context)
  | timeLimit (limit : Nat)
  | excludeList (list : ExcludeList) (platform : Platform)
  | matchList (list : MatchList)
  | keyword (text : String) (e : Expr)
  | priorStatus (wanted : List PriorStatus) (prior : Table PriorStatus)

/-- What becomes of a test. -/
inductive Outcome
  | accepted
  /-- By the filter with the name, for the reason. -/
  | rejected (filter reason : String)
  | faulted (fault : FilterFault)
deriving DecidableEq

namespace Criterion

def fresh : Criterion → Filter
  | modules installed => .modules installed []
  | requires context => .requires context [] RequirementRecord.empty
  | timeLimit limit => .timeLimit limit []
  | excludeList list platform => .excludeList list platform []
  | matchList list => .matchList list []
  | keyword text e => .keyword text e Table.empty
  | priorStatus wanted prior => .priorStatus wanted prior []

/-- The answer for a test. Only the question about keywords can be without one; a requirement that
cannot be evaluated counts as met. -/
def answer (test : Description) : Criterion → Except FilterFault Bool
  | modules installed => .ok (Decision.modules installed test)
  | requires context => .ok (Decision.permits context test)
  | timeLimit limit => .ok (Decision.timeLimit limit test)
  | excludeList list platform => .ok (Decision.notExcluded list platform test)
  | matchList list => .ok (Decision.listed list test)
  | keyword _ e =>
    (Decision.keywords e test).mapError fun fault => ⟨"keyword", test.url, fault.message⟩
  | priorStatus wanted prior => .ok (Decision.priorStatus wanted prior test)

/-- What becomes of a test by questions in order. -/
def outcome (test : Description) : List Criterion → Outcome
  | [] => .accepted
  | k :: rest =>
    match k.answer test with
    | .error fault => .faulted fault
    | .ok false => .rejected k.fresh.name k.fresh.reason
    | .ok true => outcome test rest

theorem exists_of_outcome_eq_rejected {test : Description} {criteria : List Criterion}
    {filter reason : String} (h : outcome test criteria = .rejected filter reason) :
    ∃ k ∈ criteria, k.answer test = .ok false ∧ k.fresh.name = filter := by
  induction criteria with
  | nil => exact nomatch h
  | cons k rest ih =>
      rw [outcome] at h
      split at h
      · exact nomatch h
      · rename_i hanswer
        exact ⟨k, List.mem_cons_self, hanswer, (Outcome.rejected.inj h).1⟩
      · obtain ⟨k', hk', hanswer, hname⟩ := ih h
        exact ⟨k', List.mem_cons_of_mem k hk', hanswer, hname⟩

end Criterion

/-! ### Keys -/

/-- On a domain, tests with one URL are of one file. -/
def SameFiles (D : Description → Prop) : Prop :=
  ∀ s t, D s → D t → s.url = t.url → s.relativePath = t.relativePath

namespace Decision

open KeyedRule

variable {D : Description → Prop}

theorem modules_eq_true_iff {installed : NameSet} {test : Description} :
    modules (some installed) test = true ↔
      ∀ name, (Filter.moduleNames test).contains name = true → installed.contains name = true := by
  simp only [modules, Filter.moduleNames, List.all_eq_true, NameSet.contains_ofNames, List.mem_map]
  constructor
  · rintro h name ⟨m, hm, rfl⟩
    exact h m hm
  · exact fun h m hm => h m.module ⟨m, hm, rfl⟩

theorem determines_modules (installed : Option NameSet) :
    Determines D Filter.moduleNames (modules installed) := by
  intro s t _ _ heq
  cases installed with
  | none => rfl
  | some names => rw [Bool.eq_iff_iff, modules_eq_true_iff, modules_eq_true_iff, heq]

theorem determines_timeLimit (limit : Nat) :
    Determines D Description.maxTimeout (timeLimit limit) := by
  intro s t _ _ heq
  rw [timeLimit, timeLimit, heq]

theorem determines_notExcluded (hD : SameFiles D) (list : ExcludeList) (platform : Platform) :
    Determines D Description.url (notExcluded list platform) := by
  intro s t hs ht heq
  simp only [notExcluded, ExcludeList.excludes?, ExcludeEntry.covers, heq, hD s t hs ht heq]

theorem determines_listed (hD : SameFiles D) (list : MatchList) :
    Determines D Description.url (listed list) := by
  intro s t hs ht heq
  simp only [listed, MatchList.contains, heq, hD s t hs ht heq]

theorem determines_priorStatus (wanted : List PriorStatus) (prior : Table PriorStatus) :
    Determines D Description.url (priorStatus wanted prior) := by
  intro s t _ _ heq
  rw [priorStatus, priorStatus, heq]

end Decision

/-! ### Filters and chains -/

namespace Filter

open KeyedRule

/-- A filter asks the question, and what it remembers is right on the domain. -/
inductive Answers (D : Description → Prop) : Filter → Criterion → Prop
  | modules {installed : Option NameSet} {memo : Memo NameSet}
      (h : Recalls D moduleNames (Decision.modules installed) memo) :
      Answers D (.modules installed memo) (.modules installed)
  | requires {context : Context} {memo : Memo (Option String)} {record : RequirementRecord}
      (h : RequirementRecord.Tracks context memo record) :
      Answers D (.requires context memo record) (.requires context)
  | timeLimit {limit : Nat} {memo : Memo Nat}
      (h : Recalls D Description.maxTimeout (Decision.timeLimit limit) memo) :
      Answers D (.timeLimit limit memo) (.timeLimit limit)
  | excludeList {list : ExcludeList} {platform : Platform} {memo : Memo String}
      (h : Recalls D Description.url (Decision.notExcluded list platform) memo) :
      Answers D (.excludeList list platform memo) (.excludeList list platform)
  | matchList {list : MatchList} {memo : Memo String}
      (h : Recalls D Description.url (Decision.listed list) memo) :
      Answers D (.matchList list memo) (.matchList list)
  | keyword {text : String} {e : Expr} (ignored : NameSet) :
      Answers D (.keyword text e ignored) (.keyword text e)
  | priorStatus {wanted : List PriorStatus} {prior : Table PriorStatus} {memo : Memo String}
      (h : Recalls D Description.url (Decision.priorStatus wanted prior) memo) :
      Answers D (.priorStatus wanted prior memo) (.priorStatus wanted prior)

variable {D : Description → Prop} {exprs : ExprCache} {f : Filter} {k : Criterion}
  {test : Description}

theorem answers_fresh (D : Description → Prop) (k : Criterion) : k.fresh.Answers D k := by
  cases k with
  | modules => exact .modules recalls_nil
  | requires context => exact .requires (RequirementRecord.tracks_empty context)
  | timeLimit => exact .timeLimit recalls_nil
  | excludeList => exact .excludeList recalls_nil
  | matchList => exact .matchList recalls_nil
  | keyword => exact .keyword Table.empty
  | priorStatus => exact .priorStatus recalls_nil

theorem Answers.name_eq (h : f.Answers D k) : f.name = k.fresh.name := by
  cases h <;> rfl

theorem Answers.reason_eq (h : f.Answers D k) : f.reason = k.fresh.reason := by
  cases h <;> rfl

/-- A filter answers its question and goes on to do so. -/
theorem Answers.accepts (h : f.Answers D k) (hD : SameFiles D) (hexprs : exprs.Faithful)
    (htest : D test) :
    ∃ exprs' f', f.accepts exprs test = (k.answer test, exprs', f') ∧ exprs'.Faithful ∧
      f'.Answers D k := by
  cases h with
  | @modules installed memo h =>
      obtain ⟨memo', haccepts, h'⟩ := accepts_pure (Decision.determines_modules installed) h htest
      exact ⟨exprs, .modules installed memo', by simp only [Filter.accepts, haccepts]; rfl,
        hexprs, .modules h'⟩
  | @requires context memo record h =>
      obtain ⟨memo', exprs', record', haccepts, hexprs', h', -⟩ := h.accepts hexprs test
      exact ⟨exprs', .requires context memo' record', by simp only [Filter.accepts, haccepts]; rfl,
        hexprs', .requires h'⟩
  | @timeLimit limit memo h =>
      obtain ⟨memo', haccepts, h'⟩ := accepts_pure (Decision.determines_timeLimit limit) h htest
      exact ⟨exprs, .timeLimit limit memo', by simp only [Filter.accepts, haccepts]; rfl,
        hexprs, .timeLimit h'⟩
  | @excludeList list platform memo h =>
      obtain ⟨memo', haccepts, h'⟩ :=
        accepts_pure (Decision.determines_notExcluded hD list platform) h htest
      exact ⟨exprs, .excludeList list platform memo', by simp only [Filter.accepts, haccepts]; rfl,
        hexprs, .excludeList h'⟩
  | @matchList list memo h =>
      obtain ⟨memo', haccepts, h'⟩ := accepts_pure (Decision.determines_listed hD list) h htest
      exact ⟨exprs, .matchList list memo', by simp only [Filter.accepts, haccepts]; rfl,
        hexprs, .matchList h'⟩
  | @keyword text e ignored =>
      simp only [Filter.accepts, Criterion.answer]
      cases Decision.keywords e test with
      | error fault => exact ⟨exprs, _, rfl, hexprs, .keyword ignored⟩
      | ok answer => exact ⟨exprs, _, rfl, hexprs, .keyword _⟩
  | @priorStatus wanted prior memo h =>
      obtain ⟨memo', haccepts, h'⟩ :=
        accepts_pure (Decision.determines_priorStatus wanted prior) h htest
      exact ⟨exprs, .priorStatus wanted prior memo', by simp only [Filter.accepts, haccepts]; rfl,
        hexprs, .priorStatus h'⟩

end Filter

namespace FilterChain

open TestSelection.Filter

/-- What a chain's answer to a test says of it. -/
def outcomeOf : Except FilterFault (Option Filter) → Outcome
  | .error fault => .faulted fault
  | .ok (some f) => .rejected f.name f.reason
  | .ok none => .accepted

/-- The chain asks questions in order, and what it remembers is right on the domain. -/
structure Answers (D : Description → Prop) (criteria : List Criterion) (c : FilterChain) :
    Prop where
  exprs : c.exprs.Faithful
  filters : List.Forall₂ (Filter.Answers D) c.filters criteria

/-- The chain that asks questions in order and remembers nothing yet. -/
def fresh (criteria : List Criterion) : FilterChain :=
  ⟨ExprCache.empty, criteria.map Criterion.fresh⟩

variable {D : Description → Prop} {test : Description} {criteria : List Criterion}

theorem answers_fresh (D : Description → Prop) (criteria : List Criterion) :
    (fresh criteria).Answers D criteria := by
  refine ⟨ExprCache.faithful_empty, ?_⟩
  rw [fresh, List.forall₂_map_left_iff]
  exact List.forall₂_same.mpr fun k _ => Filter.answers_fresh D k

theorem ask_of_answers (hD : SameFiles D) (htest : D test) {exprs : ExprCache}
    {filters : List Filter} (hexprs : exprs.Faithful)
    (hfilters : List.Forall₂ (Filter.Answers D) filters criteria) :
    outcomeOf (ask exprs test filters).1 = Criterion.outcome test criteria ∧
      (ask exprs test filters).2.1.Faithful ∧
      List.Forall₂ (Filter.Answers D) (ask exprs test filters).2.2 criteria := by
  induction hfilters generalizing exprs with
  | nil => exact ⟨rfl, hexprs, .nil⟩
  | @cons f k filters criteria hf hrest ih =>
      obtain ⟨exprs', f', haccepts, hexprs', hf'⟩ := hf.accepts hD hexprs htest
      rw [ask, haccepts, Criterion.outcome]
      cases k.answer test with
      | error fault => exact ⟨rfl, hexprs', .cons hf' hrest⟩
      | ok answer =>
          cases answer with
          | false =>
              refine ⟨?_, hexprs', .cons hf' hrest⟩
              rw [outcomeOf, hf'.name_eq, hf'.reason_eq]
          | true =>
              obtain ⟨houtcome, hexprs'', hfilters⟩ := ih hexprs'
              exact ⟨houtcome, hexprs'', .cons hf' hfilters⟩

theorem Answers.firstRejection {c : FilterChain} (h : c.Answers D criteria) (hD : SameFiles D)
    (htest : D test) :
    outcomeOf (c.firstRejection test).1 = Criterion.outcome test criteria ∧
      (c.firstRejection test).2.Answers D criteria := by
  obtain ⟨houtcome, hexprs, hfilters⟩ := ask_of_answers hD htest h.exprs h.filters
  exact ⟨houtcome, hexprs, hfilters⟩

end FilterChain

end TestSelection
