import TestSelection.Expr.Cache
import TestSelection.Filter.Decision
import TestSelection.Filter.Memo

/-!
Filters: the questions of `Decision` with what each filter remembers between tests. All but the one
for keywords keep their answers by a key. A requirement that cannot be evaluated does not reject its
tests; the filter records why, for each of them.
-/

namespace TestSelection

/-- What the filter for requirements records: why texts, and so tests, could not be evaluated. -/
structure RequirementRecord where
  byText : Table String
  byUrl : Table String

def RequirementRecord.empty : RequirementRecord := ⟨Table.empty, Table.empty⟩

/-- The rule of the filter for requirements, over the expressions read so far and its record. -/
def requiresRule (context : Context) :
    KeyedRule (Option String) (ExprCache × RequirementRecord) where
  key := fun test => test.requires
  compute := fun (exprs, record) test =>
    match test.requires with
    | none => (.ok true, exprs, record)
    | some text =>
      let (parsed, exprs) := exprs.getOrParse text
      let fail := fun reason : String =>
        (.ok true, exprs, { record with byText := record.byText.insert text reason })
      match parsed with
      | .error error => fail error.message
      | .ok entry =>
        match entry.expr.holds context with
        | .ok answer => (.ok answer, exprs, record)
        | .error fault => fail fault.message
  observe := fun (exprs, record) test _ =>
    match test.requires.bind record.byText.get? with
    | none => (.ok (), exprs, record)
    | some reason => (.ok (), exprs, { record with byUrl := record.byUrl.insert test.url reason })

/-- A filter and what it remembers. -/
inductive Filter
  | modules (installed : Option NameSet) (memo : Memo NameSet)
  | requires (context : Context) (memo : Memo (Option String)) (record : RequirementRecord)
  | timeLimit (limit : Nat) (memo : Memo Nat)
  | excludeList (list : ExcludeList) (platform : Platform) (memo : Memo String)
  | matchList (list : MatchList) (memo : Memo String)
  /-- The text and its expression, and the tests rejected although they are to be ignored. -/
  | keyword (text : String) (expr : Expr) (ignored : NameSet)
  | priorStatus (wanted : List PriorStatus) (prior : Table PriorStatus) (memo : Memo String)

namespace Filter

/-- The filter for the keywords of a text. -/
def ofKeywords (text : String) : Except ListError Filter :=
  match Expr.parse text with
  | .ok e => .ok (keyword text e Table.empty)
  | .error error => .error (.badKeywords error)

def name : Filter → String
  | modules .. => "modules"
  | requires .. => "requires"
  | timeLimit .. => "time_limit"
  | excludeList .. => "exclude_list"
  | matchList .. => "match_list"
  | keyword .. => "keyword"
  | priorStatus .. => "prior_status"

def description : Filter → String
  | modules .. => "Select tests whose modules are available"
  | requires .. => "Select tests whose @requires expression holds"
  | timeLimit .. => "Select tests that fit within the run time limit"
  | excludeList .. => "Reject tests named in an exclude list"
  | matchList .. => "Select only tests named in a match list"
  | keyword .. => "Select tests whose keywords match the keyword expression"
  | priorStatus .. => "Select tests by their status in a previous run"

def reason : Filter → String
  | modules .. => "Module not available"
  | requires .. => "Requirements not met"
  | timeLimit .. => "Declared timeout exceeds the time limit"
  | excludeList .. => "Test is in an exclude list"
  | matchList .. => "Test is not in a match list"
  | keyword .. => "Keywords do not match"
  | priorStatus .. => "Prior status not selected"

/-- The keyword of tests that are to be ignored. -/
def ignoreKeyword : String := "ignore"

/-- The modules that a test names. -/
def moduleNames (test : Description) : NameSet :=
  NameSet.ofNames (test.modules.map ModuleSpec.module)

/-- Decides on a test, with the expressions read so far. -/
def accepts (exprs : ExprCache) (f : Filter) (test : Description) :
    Except FilterFault Bool × ExprCache × Filter :=
  match f with
  | modules installed memo =>
    let rule := KeyedRule.pure moduleNames (Decision.modules installed)
    let (answer, memo, _) := rule.accepts memo () test
    (answer, exprs, modules installed memo)
  | requires context memo record =>
    let (answer, memo, exprs, record) := (requiresRule context).accepts memo (exprs, record) test
    (answer, exprs, requires context memo record)
  | timeLimit limit memo =>
    let rule := KeyedRule.pure Description.maxTimeout (Decision.timeLimit limit)
    let (answer, memo, _) := rule.accepts memo () test
    (answer, exprs, timeLimit limit memo)
  | excludeList list platform memo =>
    let rule := KeyedRule.pure Description.url (Decision.notExcluded list platform)
    let (answer, memo, _) := rule.accepts memo () test
    (answer, exprs, excludeList list platform memo)
  | matchList list memo =>
    let rule := KeyedRule.pure Description.url (Decision.listed list)
    let (answer, memo, _) := rule.accepts memo () test
    (answer, exprs, matchList list memo)
  | keyword text e ignored =>
    match Decision.keywords e test with
    | .error fault => (.error ⟨name f, test.url, fault.message⟩, exprs, f)
    | .ok answer =>
      let ignored :=
        if !answer && test.hasKeyword ignoreKeyword then ignored.add test.url else ignored
      (.ok answer, exprs, keyword text e ignored)
  | priorStatus wanted prior memo =>
    let rule := KeyedRule.pure Description.url (Decision.priorStatus wanted prior)
    let (answer, memo, _) := rule.accepts memo () test
    (answer, exprs, priorStatus wanted prior memo)

/-- The number of answers kept, by a filter that keeps any. -/
def kept? : Filter → Option Nat
  | modules _ memo => some memo.length
  | requires _ memo _ => some memo.length
  | timeLimit _ memo => some memo.length
  | excludeList _ _ memo => some memo.length
  | matchList _ memo => some memo.length
  | keyword .. => none
  | priorStatus _ _ memo => some memo.length

end Filter

end TestSelection
