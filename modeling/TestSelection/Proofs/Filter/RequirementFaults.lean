import TestSelection.Proofs.Filter.Selection

/-!
Requirements that cannot be evaluated. The filter for requirements lets their tests pass, and a
selection says so: it records a reason under the URL of each test that the filter is asked of, from
the memory if others have had the same text, and reports the reasons behind the faults of the other
filters. In the chain of a run only the filter for modules is asked before it, and no other filter
keeps such a record.
-/

namespace TestSelection

namespace Decision

/-- Why the requirement of a test cannot be evaluated, for a test whose modules are installed. -/
def recordedFault? (installed : Option NameSet) (context : Context) (test : Description) :
    Option String :=
  if modules installed test then requirementFault? context test else none

theorem permits_of_recordedFault? {installed : Option NameSet} {context : Context}
    {test : Description} {reason : String}
    (h : recordedFault? installed context test = some reason) : permits context test = true := by
  rw [recordedFault?] at h
  split at h
  · exact permits_of_requirementFault? h
  · exact nomatch h

end Decision

/-! ### Recording tests -/

namespace RequirementRecord

variable {fault? : Description → Option String} {faults : Table String}

def noteAll (fault? : Description → Option String) (faults : Table String)
    (tests : List Description) : Table String :=
  tests.foldl (noteFault fault?) faults

theorem get?_noteAll_of_not_mem {url : String} {tests : List Description}
    (h : url ∉ tests.map Description.url) :
    (noteAll fault? faults tests).get? url = faults.get? url := by
  induction tests generalizing faults with
  | nil => rfl
  | cons test rest ih =>
      rw [List.map_cons, List.mem_cons, not_or] at h
      rw [noteAll, List.foldl_cons]
      refine (ih h.2).trans ?_
      rw [noteFault]
      split
      · rw [Table.get?_insert, if_neg (Ne.symm h.1)]
      · rfl

theorem get?_noteAll {tests : List Description} (hurls : (tests.map Description.url).Nodup)
    {test : Description} (htest : test ∈ tests) :
    (noteAll fault? faults tests).get? test.url = (fault? test).or (faults.get? test.url) := by
  induction tests generalizing faults with
  | nil => exact nomatch htest
  | cons first rest ih =>
      rw [List.map_cons, List.nodup_cons] at hurls
      rw [noteAll, List.foldl_cons]
      rcases List.mem_cons.mp htest with rfl | hrest
      · refine (get?_noteAll_of_not_mem hurls.1).trans ?_
        rw [noteFault]
        cases fault? test with
        | some reason => rw [Table.get?_insert, if_pos rfl, Option.some_or]
        | none => rw [Option.none_or]
      · have hne : first.url ≠ test.url := fun heq =>
          hurls.1 (heq ▸ List.mem_map_of_mem hrest)
        refine (ih hurls.2 hrest).trans ?_
        rw [noteFault]
        cases fault? first with
        | some reason => rw [Table.get?_insert, if_neg hne]
        | none => rfl

/-- An empty table records exactly the faults of tests with different URLs. -/
theorem get?_noteAll_empty {tests : List Description} (hurls : (tests.map Description.url).Nodup)
    {url reason : String} :
    (noteAll fault? Table.empty tests).get? url = some reason ↔
      ∃ test ∈ tests, test.url = url ∧ fault? test = some reason := by
  constructor
  · intro h
    by_cases hurl : url ∈ tests.map Description.url
    · obtain ⟨test, htest, rfl⟩ := List.mem_map.mp hurl
      rw [get?_noteAll hurls htest, Table.get?_empty, Option.or_none] at h
      exact ⟨test, htest, rfl, h⟩
    · rw [get?_noteAll_of_not_mem hurl, Table.get?_empty] at h
      exact nomatch h
  · rintro ⟨test, htest, rfl, hfault⟩
    rw [get?_noteAll hurls htest, hfault, Option.some_or]

end RequirementRecord

/-! ### Parts of a selection -/

theorem Outcome.rejection?_eq_some {outcome : Outcome} {test : Description} {r : Rejection}
    (h : outcome.rejection? test = some r) :
    outcome = .rejected r.filter r.reason ∧ r.url = test.url := by
  cases outcome with
  | rejected filter reason =>
      obtain rfl := Option.some.inj h
      exact ⟨rfl, rfl⟩
  | accepted => exact nomatch h
  | faulted fault => exact nomatch h

/-- Each test that faulted has its report. -/
theorem Selection.map_reports_ofOutcomes (outcome : Description → Outcome)
    (tests : List Description) :
    (ofOutcomes outcome tests).reports.map (fun d => (d.kind, d.url, d.message))
      = (ofOutcomes outcome tests).faulted.map
          fun (url, fault) => (.filter, some url, fault.message) := by
  simp only [ofOutcomes, List.map_filterMap, Option.map_map, Function.comp_def,
    FilterChain.filterReport]

/-! ### The record of a chain -/

namespace FilterChain

open RequirementRecord

variable {D : Description → Prop} {criteria : List Criterion} {c : FilterChain}
  {installed : Option NameSet} {context : Context} {test : Description}

theorem not_requires_of_answers {filters : List Filter}
    (hfilters : List.Forall₂ (Filter.Answers D) filters criteria)
    (hno : ∀ context, Criterion.requires context ∉ criteria) :
    ∀ f ∈ filters, ∀ context memo record, f ≠ .requires context memo record := by
  induction hfilters with
  | nil => exact fun f hf => nomatch hf
  | cons hf _ ih =>
      refine List.forall_mem_cons.mpr ⟨?_, ih fun context hk =>
        hno context (List.mem_cons_of_mem _ hk)⟩
      rintro context memo record rfl
      cases hf
      exact hno context List.mem_cons_self

/-- The filters behind the first two of a run keep no record of requirements. -/
theorem requirementFaults_of_answers {exprs : ExprCache} {f : Filter}
    {memo : Memo (Option String)} {record : RequirementRecord} {filters : List Filter}
    (hfilters : List.Forall₂ (Filter.Answers D) filters criteria)
    (hno : ∀ context, Criterion.requires context ∉ criteria) :
    requirementFaults ⟨exprs, f :: .requires context memo record :: filters⟩ = record.byUrl := by
  rw [requirementFaults, List.reverse_cons, List.reverse_cons, List.findSome?_append,
    List.findSome?_append, List.findSome?_eq_none_iff.mpr]
  · rfl
  · intro g hg
    have hne := not_requires_of_answers hfilters hno g (List.mem_reverse.mp hg)
    cases g with
    | requires context memo record => exact absurd rfl (hne context memo record)
    | _ => rfl

theorem requirementFaults_fresh (texts : List String)
    (hno : ∀ context, Criterion.requires context ∉ criteria) :
    ((fresh (.modules installed :: .requires context :: criteria)).afterReading
      texts).requirementFaults = Table.empty :=
  requirementFaults_of_answers (answers_fresh (fun _ => True) criteria).filters hno

/-- What asking a test adds to the record. -/
theorem Answers.requirementFaults_firstRejection
    (h : c.Answers D (.modules installed :: .requires context :: criteria))
    (hno : ∀ context, Criterion.requires context ∉ criteria) (hD : SameFiles D)
    (htest : D test) :
    (c.firstRejection test).2.requirementFaults
      = noteAll (Decision.recordedFault? installed context) c.requirementFaults [test] := by
  obtain ⟨exprs, filters⟩ := c
  have hexprs : exprs.Faithful := h.exprs
  cases h.filters with
  | @cons f _ filters _ hf hfilters =>
  cases hfilters with
  | @cons g _ filters _ hg hfilters =>
  cases hf with | @modules _ memo hf =>
  cases hg with | @requires _ memo' record hg =>
  obtain ⟨memo₁, hmodules, -⟩ :=
    KeyedRule.accepts_pure (Decision.determines_modules installed) hf htest
  obtain ⟨memo₂, exprs₂, record₂, hrequires, hexprs₂, -, hurl⟩ := hg.accepts hexprs test
  have hrecord : requirementFaults ⟨exprs, .modules installed memo
      :: .requires context memo' record :: filters⟩ = record.byUrl :=
    requirementFaults_of_answers hfilters hno
  rw [hrecord, noteAll, List.foldl_cons, List.foldl_nil, noteFault, Decision.recordedFault?]
  simp only [FilterChain.firstRejection, ask, Filter.accepts, hmodules]
  cases Decision.modules installed test with
  | false => exact requirementFaults_of_answers hfilters hno
  | true =>
      change _ = noteFault (Decision.requirementFault? context) record.byUrl test
      rw [← hurl]
      simp only [hrequires]
      cases Decision.permits context test with
      | false => exact requirementFaults_of_answers hfilters hno
      | true =>
          obtain ⟨-, -, hasked⟩ := ask_of_answers hD htest hexprs₂ hfilters
          exact requirementFaults_of_answers hasked hno

theorem Answers.requirementFaults_sort
    (h : c.Answers D (.modules installed :: .requires context :: criteria))
    (hno : ∀ context, Criterion.requires context ∉ criteria) (hD : SameFiles D)
    {tests : List Description} (htests : ∀ test ∈ tests, D test) :
    (c.sort tests).2.requirementFaults
      = noteAll (Decision.recordedFault? installed context) c.requirementFaults tests := by
  induction tests generalizing c with
  | nil => rfl
  | cons test rest ih =>
      have htest := htests test List.mem_cons_self
      obtain ⟨-, hfirst⟩ := h.firstRejection hD htest
      have hrest := ih hfirst fun t ht => htests t (List.mem_cons_of_mem test ht)
      rw [h.requirementFaults_firstRejection hno hD htest] at hrest
      rw [FilterChain.sort]
      dsimp only
      cases (c.firstRejection test).1 with
      | error fault => exact hrest
      | ok rejecting => cases rejecting <;> exact hrest

end FilterChain

/-! ### The chain of a run -/

namespace RunConfig

open FilterChain RequirementRecord

variable {run : RunConfig} {tree : FileTree} {inputs : RunInputs} {lists : RunLists}

theorem exists_criteria_eq (run : RunConfig) (inputs : RunInputs) (lists : RunLists) :
    ∃ others, run.criteria inputs lists
        = .modules inputs.installed :: .requires (run.layer inputs.context) :: others ∧
      ∀ context, Criterion.requires context ∉ others := by
  simp only [criteria, List.cons_append, List.nil_append]
  refine ⟨_, rfl, fun context h => ?_⟩
  simp only [List.mem_append, Option.mem_toList, Option.map_eq_some_iff] at h
  rcases h with (((⟨_, -, h⟩ | h) | h) | ⟨_, -, h⟩) | h
  · cases h
  · split at h <;> simp at h
  · split at h <;> simp at h
  · cases h
  · split at h <;> simp at h

/-- The requirement of a test for which a fault is recorded does not reject the test. -/
theorem ne_requires_of_recordedFault? {test : Description} {filter reason fault : String}
    (houtcome : Criterion.outcome test (run.criteria inputs lists) = .rejected filter reason)
    (hfault : Decision.recordedFault? inputs.installed (run.layer inputs.context) test
      = some fault) : filter ≠ "requires" := by
  rintro rfl
  obtain ⟨k, hk, hanswer, hname⟩ := Criterion.exists_of_outcome_eq_rejected houtcome
  obtain ⟨others, heq, hno⟩ := exists_criteria_eq run inputs lists
  cases k with
  | requires context =>
      rw [heq] at hk
      rcases List.mem_cons.mp hk with hk | hk
      · cases hk
      · rcases List.mem_cons.mp hk with hk | hk
        · obtain rfl := Criterion.requires.inj hk
          have hpermits := Decision.permits_of_recordedFault? hfault
          rw [Criterion.answer, hpermits] at hanswer
          cases hanswer
        · exact hno context hk
  | _ => simp [Criterion.fresh, Filter.name] at hname

/-- Of tests with different URLs, a selection by the new chain of a run records exactly those whose
modules are installed and whose requirement cannot be evaluated, and why. Their requirements do not
reject them, and each has one report, behind the reports on the tests that faulted. The chain may
share its cache of expressions with others who have read texts through it. -/
theorem requirementFaults_select {c : FilterChain} (h : run.chain tree inputs = .ok c)
    (texts : List String) (tests : List Description)
    (hurls : (tests.map Description.url).Nodup) :
    let fault? := Decision.recordedFault? inputs.installed (run.layer inputs.context)
    let s := ((c.afterReading texts).select tests).1
    let faults := ((c.afterReading texts).select tests).2.requirementFaults
    (∀ url reason, faults.get? url = some reason ↔
      ∃ test ∈ tests, test.url = url ∧ fault? test = some reason) ∧
    (∀ test ∈ tests, ∀ reason, fault? test = some reason →
      ∀ r ∈ s.rejected, r.url = test.url → r.filter ≠ "requires") ∧
    ∃ before, s.reports = before ++ tests.filterMap (fun test =>
        (fault? test).map (filterReport test)) ∧
      before.map (fun d => (d.kind, d.url, d.message))
        = s.faulted.map fun (url, fault) => (.filter, some url, fault.message) := by
  intro fault? s faults
  have hD : SameFiles (· ∈ tests) := fun t t' ht ht' heq =>
    congrArg Description.relativePath (List.inj_on_of_nodup_map hurls ht ht' heq)
  obtain ⟨lists, -, rfl⟩ := exists_reads_of_chain h
  obtain ⟨others, heq, hno⟩ := exists_criteria_eq run inputs lists
  have hanswers := (answers_fresh (· ∈ tests) (run.criteria inputs lists)).afterReading texts
  obtain ⟨hsort, -⟩ := hanswers.sort hD fun _ ht => ht
  have hfaults : faults = noteAll fault? Table.empty tests := by
    rw [heq] at hanswers
    have hrecord := hanswers.requirementFaults_sort hno hD fun _ ht => ht
    rw [requirementFaults_fresh texts hno, ← heq] at hrecord
    exact hrecord
  refine ⟨?_, ?_, ?_⟩
  · intro url reason
    rw [hfaults, get?_noteAll_empty hurls]
  · intro test htest reason hfault r hr hurl
    change r ∈ (FilterChain.sort _ tests).1.rejected at hr
    rw [hsort] at hr
    obtain ⟨other, hother, hr⟩ := List.mem_filterMap.mp hr
    obtain ⟨houtcome, hurl'⟩ := Outcome.rejection?_eq_some hr
    obtain rfl := List.inj_on_of_nodup_map hurls htest hother (hurl.symm.trans hurl')
    exact ne_requires_of_recordedFault? houtcome hfault
  · let outcome := (Criterion.outcome · (run.criteria inputs lists))
    refine ⟨(Selection.ofOutcomes outcome tests).reports, ?_, ?_⟩
    · change _ ++ tests.filterMap (fun test => (faults.get? test.url).map (filterReport test)) = _
      rw [hsort, List.filterMap_congr]
      intro test htest
      rw [hfaults, get?_noteAll hurls htest, Table.get?_empty, Option.or_none]
    · rw [Selection.map_reports_ofOutcomes]
      change _ = (FilterChain.sort _ tests).1.faulted.map _
      rw [hsort]

/-- Two tests share a requirement that divides by zero, as does one without its module; only the
first two are recorded and reported. -/
theorem requirementFaults_select_shared :
    let inputs : RunInputs := ⟨Context.empty, some Table.empty, Table.empty, ⟨"linux", "x64"⟩⟩
    let test := fun path => { Description.new ⟨path⟩ path 1 none with requires := some "1 / 0" }
    let other := { test "c" with modules := [⟨"java.base", none, []⟩] }
    ∃ c, default.chain (.folder []) inputs = .ok c ∧
      let (s, c) := (c.afterReading ["1 / 0"]).select [test "a", other, test "b"]
      c.requirementFaults.get? "a" = some "division by zero" ∧
      c.requirementFaults.get? "b" = some "division by zero" ∧
      c.requirementFaults.get? "c" = none ∧
      s.rejected.map Rejection.filter = ["modules"] ∧
      s.reports.map Diagnostic.url = [some "a", some "b"] := by
  intro inputs test other
  let c := fresh (default.criteria inputs ⟨ExcludeList.empty, MatchList.empty, none⟩)
  have hc : default.chain (.folder []) inputs = .ok c := rfl
  let fault? := Decision.recordedFault? inputs.installed (default.layer inputs.context)
  have ha : fault? (test "a") = some "division by zero" := by decide +kernel
  have hb : fault? (test "b") = some "division by zero" := by decide +kernel
  have hother : fault? other = none := by decide +kernel
  obtain ⟨hget, -, -⟩ :=
    requirementFaults_select hc ["1 / 0"] [test "a", other, test "b"] (by decide +kernel)
  refine ⟨c, hc, (hget _ _).mpr ⟨test "a", ?_, rfl, ha⟩, (hget _ _).mpr ⟨test "b", ?_, rfl, hb⟩, ?_,
    by decide +kernel, by decide +kernel⟩
  · exact List.mem_cons_self
  · exact List.mem_cons_of_mem _ (List.mem_cons_of_mem _ List.mem_cons_self)
  · refine Option.eq_none_iff_forall_ne_some.mpr fun reason h => ?_
    obtain ⟨t, ht, hurl, hfault⟩ := (hget _ _).mp h
    simp only [List.mem_cons, List.not_mem_nil, or_false] at ht
    rcases ht with rfl | rfl | rfl
    · exact absurd hurl (by decide +kernel)
    · exact nomatch hother.symm.trans hfault
    · exact absurd hurl (by decide +kernel)

end RunConfig

end TestSelection
