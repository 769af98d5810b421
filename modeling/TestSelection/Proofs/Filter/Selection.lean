import TestSelection.Proofs.Except
import TestSelection.Proofs.Filter.Criterion
import TestSelection.Run.Chain

/-!
What a run selects. Its chain asks the questions that the configuration asks for, in a fixed order,
and sorts each list of tests by what the questions alone make of each test: nothing that has been
remembered from other tests or earlier lists has an effect, and neither has what others have read
through the cache of expressions that they share with the chain.
-/

namespace TestSelection

/-! ### Sorting a list of tests -/

namespace Outcome

/-- The entry of a test among the rejected ones. -/
def rejection? (test : Description) : Outcome → Option Rejection
  | rejected filter reason => some ⟨test.url, filter, reason⟩
  | _ => none

def fault? : Outcome → Option FilterFault
  | faulted fault => some fault
  | _ => none

end Outcome

/-- The tests of a list sorted by what becomes of each. -/
def Selection.ofOutcomes (outcome : Description → Outcome) (tests : List Description) :
    Selection where
  accepted := tests.filter fun test => outcome test = .accepted
  rejected := tests.filterMap fun test => (outcome test).rejection? test
  faulted := tests.filterMap fun test => (outcome test).fault?.map fun fault => (test.url, fault)
  reports := tests.filterMap fun test => (outcome test).fault?.map fun fault =>
    FilterChain.filterReport test fault.message

namespace Selection

variable {outcome : Description → Outcome} {test : Description} {rest : List Description}

theorem ofOutcomes_cons_accepted (h : outcome test = .accepted) :
    ofOutcomes outcome (test :: rest)
      = { ofOutcomes outcome rest with
          accepted := test :: (ofOutcomes outcome rest).accepted } := by
  simp [ofOutcomes, h, Outcome.rejection?, Outcome.fault?]

theorem ofOutcomes_cons_rejected {filter reason : String}
    (h : outcome test = .rejected filter reason) :
    ofOutcomes outcome (test :: rest)
      = { ofOutcomes outcome rest with
          rejected := ⟨test.url, filter, reason⟩ :: (ofOutcomes outcome rest).rejected } := by
  simp [ofOutcomes, h, Outcome.rejection?, Outcome.fault?]

theorem ofOutcomes_cons_faulted {fault : FilterFault} (h : outcome test = .faulted fault) :
    ofOutcomes outcome (test :: rest)
      = { ofOutcomes outcome rest with
          faulted := (test.url, fault) :: (ofOutcomes outcome rest).faulted
          reports := FilterChain.filterReport test fault.message
            :: (ofOutcomes outcome rest).reports } := by
  simp [ofOutcomes, h, Outcome.rejection?, Outcome.fault?]

/-- Each test is in exactly one of the three lists. -/
theorem length_ofOutcomes (outcome : Description → Outcome) (tests : List Description) :
    (ofOutcomes outcome tests).accepted.length + (ofOutcomes outcome tests).rejected.length
      + (ofOutcomes outcome tests).faulted.length = tests.length := by
  induction tests with
  | nil => rfl
  | cons test rest ih =>
      cases h : outcome test with
      | accepted =>
          rw [ofOutcomes_cons_accepted h]
          simp only [List.length_cons]
          omega
      | rejected filter reason =>
          rw [ofOutcomes_cons_rejected h]
          simp only [List.length_cons]
          omega
      | faulted fault =>
          rw [ofOutcomes_cons_faulted h]
          simp only [List.length_cons]
          omega

end Selection

namespace FilterChain

variable {D : Description → Prop} {criteria : List Criterion} {c : FilterChain}

theorem Answers.sort (h : c.Answers D criteria) (hD : SameFiles D) {tests : List Description}
    (htests : ∀ test ∈ tests, D test) :
    (c.sort tests).1 = .ofOutcomes (Criterion.outcome · criteria) tests ∧
      (c.sort tests).2.Answers D criteria := by
  induction tests generalizing c with
  | nil => exact ⟨rfl, h⟩
  | cons test rest ih =>
      obtain ⟨houtcome, hfirst⟩ := h.firstRejection hD (htests test List.mem_cons_self)
      obtain ⟨hrest, hlast⟩ := ih hfirst fun t ht => htests t (List.mem_cons_of_mem test ht)
      rw [FilterChain.sort]
      dsimp only
      rw [hrest]
      cases hresult : (c.firstRejection test).1 with
      | error fault =>
          rw [hresult] at houtcome
          exact ⟨(Selection.ofOutcomes_cons_faulted houtcome.symm).symm, hlast⟩
      | ok rejecting =>
          rw [hresult] at houtcome
          cases rejecting with
          | none => exact ⟨(Selection.ofOutcomes_cons_accepted houtcome.symm).symm, hlast⟩
          | some f => exact ⟨(Selection.ofOutcomes_cons_rejected houtcome.symm).symm, hlast⟩

theorem select_snd (c : FilterChain) (tests : List Description) :
    (c.select tests).2 = (c.sort tests).2 := rfl

/-! ### Using a chain -/

/-- A use of a chain, or of the cache of expressions that it shares with others. -/
inductive Use
  | select (tests : List Description)
  /-- Somebody else reads a text through the cache. -/
  | read (text : String)

/-- The tests that a use is about. -/
def Use.tests : Use → List Description
  | select tests => tests
  | read _ => []

/-- The chain after others have read texts through its cache. -/
def afterReading (c : FilterChain) (texts : List String) : FilterChain :=
  { c with exprs := c.exprs.afterReading texts }

/-- The chain after a use. -/
def after (c : FilterChain) : Use → FilterChain
  | .select tests => (c.select tests).2
  | .read text => c.afterReading [text]

def afterAll (c : FilterChain) (uses : List Use) : FilterChain := uses.foldl after c

theorem Answers.afterReading (h : c.Answers D criteria) (texts : List String) :
    (c.afterReading texts).Answers D criteria :=
  ⟨h.exprs.afterReading texts, h.filters⟩

theorem Answers.afterAll (h : c.Answers D criteria) (hD : SameFiles D) {uses : List Use}
    (huses : ∀ use ∈ uses, ∀ test ∈ use.tests, D test) : (c.afterAll uses).Answers D criteria := by
  refine List.foldlRecOn uses _ h fun c hc use huse => ?_
  cases use with
  | select tests =>
      rw [after, select_snd]
      exact (hc.sort hD (huses _ huse)).2
  | read text => exact hc.afterReading [text]

end FilterChain

/-! ### The chain of a run -/

/-- What the lists and the keywords of a run say. -/
structure RunLists where
  excluded : ExcludeList
  listed : MatchList
  /-- The text of the keywords and its expression. -/
  keywords : Option (String × Expr)

namespace RunConfig

variable {run : RunConfig} {tree : FileTree} {inputs : RunInputs} {lists : RunLists}

/-- The lists and the keywords can be read and say what is given. -/
structure Reads (run : RunConfig) (tree : FileTree) (lists : RunLists) : Prop where
  excluded : run.excludeLists.foldlM (fun l path => do
      let texts ← readLists tree [path]
      return l.merge (← ExcludeList.ofTexts texts)) ExcludeList.empty = .ok lists.excluded
  listed : ∃ texts, readLists tree run.matchLists = .ok texts ∧
    lists.listed = .ofTexts (texts.map Prod.snd)
  keywords : run.keywords = lists.keywords.map Prod.fst
  parsed : ∀ text e, lists.keywords = some (text, e) → Expr.parse text = .ok e

/-- The questions of a run in the order in which they are asked. -/
def criteria (run : RunConfig) (inputs : RunInputs) (lists : RunLists) : List Criterion :=
  [.modules inputs.installed, .requires (run.layer inputs.context)]
    ++ (run.timeLimit.map Criterion.timeLimit).toList
    ++ (if run.excludeLists = [] then []
      else [.excludeList lists.excluded (run.platform.getD inputs.host)])
    ++ (if run.matchLists = [] then [] else [.matchList lists.listed])
    ++ (lists.keywords.map fun (text, e) => Criterion.keyword text e).toList
    ++ (if run.priorStatus = [] then [] else [.priorStatus run.priorStatus inputs.prior])

/-- A filter over lists is there only if lists are named; without lists there is nothing to read. -/
theorem exists_read_of_filter {α : Type} {paths : List Path} {read : Except ListError α} {blank : α}
    (hblank : paths = [] → read = .ok blank) {f : α → Criterion} {filters : List Filter}
    (h : (if paths = [] then .ok [] else do return [(f (← read)).fresh]) = Except.ok filters) :
    ∃ a, read = .ok a ∧ filters = (if paths = [] then [] else [f a]).map Criterion.fresh := by
  by_cases hnone : paths = []
  · rw [if_pos hnone] at h
    refine ⟨blank, hblank hnone, ?_⟩
    rw [if_pos hnone]
    exact (Except.ok.inj h).symm
  · rw [if_neg hnone] at h
    obtain ⟨a, hread, h⟩ := bind_eq_ok.mp h
    refine ⟨a, hread, ?_⟩
    rw [if_neg hnone]
    exact (Except.ok.inj h).symm

theorem exists_excluded {host : Platform} {filters : List Filter}
    (h : run.excludeFilter tree host = .ok filters) :
    ∃ list, run.excludeLists.foldlM (fun l path => do
        let texts ← readLists tree [path]
        return l.merge (← ExcludeList.ofTexts texts)) ExcludeList.empty = .ok list ∧
      filters = (if run.excludeLists = [] then []
        else [Criterion.excludeList list (run.platform.getD host)]).map Criterion.fresh :=
  exists_read_of_filter (fun hnone => by rw [hnone]; rfl) h

theorem exists_listed {filters : List Filter} (h : run.matchFilter tree = .ok filters) :
    ∃ texts, readLists tree run.matchLists = .ok texts ∧
      filters = (if run.matchLists = [] then []
        else [Criterion.matchList (.ofTexts (texts.map Prod.snd))]).map Criterion.fresh :=
  exists_read_of_filter (fun hnone => by rw [hnone]; rfl) h

theorem exists_keywords {filters : List Filter} (h : run.keywordFilter = .ok filters) :
    ∃ keywords : Option (String × Expr), run.keywords = keywords.map Prod.fst ∧
      (∀ text e, keywords = some (text, e) → Expr.parse text = .ok e) ∧
      filters = (keywords.map fun (text, e) => Criterion.keyword text e).toList.map
        Criterion.fresh := by
  rw [keywordFilter] at h
  cases hkeywords : run.keywords with
  | none =>
      rw [hkeywords] at h
      exact ⟨none, rfl, fun _ _ hnone => (nomatch hnone), (Except.ok.inj h).symm⟩
  | some text =>
      rw [hkeywords] at h
      simp only [Filter.ofKeywords] at h
      cases hparse : Expr.parse text with
      | error error =>
          rw [hparse] at h
          exact nomatch h
      | ok e =>
          rw [hparse] at h
          refine ⟨some (text, e), rfl, ?_, (Except.ok.inj h).symm⟩
          rintro _ _ ⟨⟩
          exact hparse

theorem exists_reads_of_chain {c : FilterChain} (h : run.chain tree inputs = .ok c) :
    ∃ lists, run.Reads tree lists ∧ c = .fresh (run.criteria inputs lists) := by
  rw [chain] at h
  obtain ⟨_, hexclude, h⟩ := bind_eq_ok.mp h
  obtain ⟨_, hmatch, h⟩ := bind_eq_ok.mp h
  obtain ⟨_, hkeyword, h⟩ := bind_eq_ok.mp h
  obtain rfl := Except.ok.inj h
  obtain ⟨excluded, hexcluded, rfl⟩ := exists_excluded hexclude
  obtain ⟨texts, htexts, rfl⟩ := exists_listed hmatch
  obtain ⟨keywords, hkeywords, hparsed, rfl⟩ := exists_keywords hkeyword
  refine ⟨⟨excluded, .ofTexts (texts.map Prod.snd), keywords⟩,
    ⟨hexcluded, ⟨texts, htexts, rfl⟩, hkeywords, hparsed⟩, ?_⟩
  simp only [FilterChain.fresh, criteria, List.map_append]
  cases run.timeLimit <;> cases run.priorStatus <;> rfl

/-- What becomes of a test is settled by the questions of the run alone: after any uses of its
chain, a selection sorts each list of tests accordingly, if tests with one URL are of one file. -/
theorem select_afterAll {c : FilterChain} (h : run.chain tree inputs = .ok c) :
    ∃ lists, run.Reads tree lists ∧
      ∀ (uses : List FilterChain.Use) (tests : List Description),
        (∀ s ∈ uses.flatMap FilterChain.Use.tests ++ tests,
          ∀ t ∈ uses.flatMap FilterChain.Use.tests ++ tests,
            s.url = t.url → s.relativePath = t.relativePath) →
        let outcome := fun test => Criterion.outcome test (run.criteria inputs lists)
        let s := ((c.afterAll uses).select tests).1
        s.accepted = tests.filter (fun test => outcome test = .accepted) ∧
        s.rejected = tests.filterMap (fun test => (outcome test).rejection? test) ∧
        s.faulted = tests.filterMap (fun test =>
          (outcome test).fault?.map fun fault => (test.url, fault)) ∧
        s.accepted.length + s.rejected.length + s.faulted.length = tests.length := by
  obtain ⟨lists, hreads, rfl⟩ := exists_reads_of_chain h
  refine ⟨lists, hreads, fun uses tests hfiles => ?_⟩
  let D : Description → Prop := (· ∈ uses.flatMap FilterChain.Use.tests ++ tests)
  have hD : SameFiles D := fun s t hs ht => hfiles s hs t ht
  have hanswers := (FilterChain.answers_fresh D (run.criteria inputs lists)).afterAll hD
    fun use huse test htest => List.mem_append_left _ (List.mem_flatMap.mpr ⟨use, huse, htest⟩)
  obtain ⟨hsort, -⟩ := hanswers.sort hD fun test htest => List.mem_append_right _ htest
  have haccepted := congrArg Selection.accepted hsort
  have hrejected := congrArg Selection.rejected hsort
  have hfaulted := congrArg Selection.faulted hsort
  refine ⟨haccepted, hrejected, hfaulted, ?_⟩
  have hlength := Selection.length_ofOutcomes
    (Criterion.outcome · (run.criteria inputs lists)) tests
  rwa [← hsort] at hlength

/-- A run that selects by time limit, and by keywords that not every test can be asked for. -/
def timed : RunConfig :=
  { default with timeLimit := some 60, keywords := some "fast | -size > 0" }

/-- Of three tests one is accepted, one is too slow, and one faults; the slow one has been met
before. -/
theorem select_afterAll_timed :
    let fast := { Description.new ⟨"a"⟩ "a" 1 none with keywords := NameSet.ofNames ["fast"] }
    let slow := { Description.new ⟨"b"⟩ "b" 1 none with maxTimeout := 90 }
    let large := Description.new ⟨"c"⟩ "c" 1 none
    let inputs : RunInputs := ⟨Context.empty, none, Table.empty, ⟨"linux", "x64"⟩⟩
    ∃ c lists, timed.chain (.folder []) inputs = .ok c ∧ timed.Reads (.folder []) lists ∧
      let outcome := fun test => Criterion.outcome test (timed.criteria inputs lists)
      let s := ((c.afterAll [.select [slow], .read "fast"]).select [fast, slow, large]).1
      outcome fast = .accepted ∧
      outcome slow = .rejected "time_limit" "Declared timeout exceeds the time limit" ∧
      outcome large = .faulted ⟨"keyword", "c", (Fault.notNumeric .sub "null").message⟩ ∧
      s.accepted = [fast] ∧ s.rejected.map Rejection.url = ["b"] ∧
      s.faulted.map Prod.fst = ["c"] := by
  intro fast slow large inputs
  let e : Expr := .binary .or (.name "fast")
    (.binary .gt (.neg (.name "size")) (.number ⟨0, 0⟩))
  have hparse : Expr.parse "fast | -size > 0" = .ok e := by decide +kernel
  have hchain : timed.chain (.folder []) inputs = .ok ⟨ExprCache.empty, [.modules none [],
      .requires (timed.layer inputs.context) [] .empty, .timeLimit 60 [],
      .keyword "fast | -size > 0" e Table.empty]⟩ := by
    simp only [chain, keywordFilter, Filter.ofKeywords, timed, hparse]
    rfl
  obtain ⟨lists, hreads, hselect⟩ := select_afterAll hchain
  obtain ⟨haccepted, hrejected, hfaulted, -⟩ :=
    hselect [.select [slow], .read "fast"] [fast, slow, large] (by decide +kernel)
  have hcriteria : timed.criteria inputs lists = [.modules none,
      .requires (timed.layer inputs.context), .timeLimit 60, .keyword "fast | -size > 0" e] := by
    obtain ⟨⟨text, e'⟩, hkeywords, rfl⟩ := Option.map_eq_some_iff.mp hreads.keywords.symm
    obtain rfl := Except.ok.inj (hparse.symm.trans (hreads.parsed _ _ hkeywords))
    rw [criteria, hkeywords]
    rfl
  have hfast : Criterion.outcome fast (timed.criteria inputs lists) = .accepted := by
    rw [hcriteria]
    decide +kernel
  have hslow : Criterion.outcome slow (timed.criteria inputs lists)
      = .rejected "time_limit" "Declared timeout exceeds the time limit" := by
    rw [hcriteria]
    decide +kernel
  have hlarge : Criterion.outcome large (timed.criteria inputs lists)
      = .faulted ⟨"keyword", "c", (Fault.notNumeric .sub "null").message⟩ := by
    rw [hcriteria]
    decide +kernel
  refine ⟨_, lists, hchain, hreads, hfast, hslow, hlarge, ?_, ?_, ?_⟩
  · rw [haccepted]
    simp only [List.filter_cons, hfast, hslow, hlarge]
    rfl
  · rw [hrejected]
    simp only [List.filterMap_cons, hfast, hslow, hlarge]
    rfl
  · rw [hfaulted]
    simp only [List.filterMap_cons, hfast, hslow, hlarge]
    rfl

end RunConfig

end TestSelection
