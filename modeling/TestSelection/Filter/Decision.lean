import TestSelection.Expr.Eval
import TestSelection.Filter.ExcludeList

/-!
What the filters of a run ask of a test, each question on its own and without any memory.
-/

namespace TestSelection

namespace Decision

/-- All modules of the test are installed; where there are none to install, every test passes. -/
def modules (installed : Option NameSet) (test : Description) : Bool :=
  match installed with
  | none => true
  | some names => test.modules.all fun m => names.contains m.module

/-- Whether the requirement of the test holds; a test without one has nothing to fail. -/
def requires (context : Context) (test : Description) : Except Fault Bool :=
  match test.requires with
  | none => .ok true
  | some text => Expr.textHolds context text

/-- The largest time limit of the test's actions is none or not above the limit. -/
def timeLimit (limit : Nat) (test : Description) : Bool :=
  test.maxTimeout == 0 || test.maxTimeout ≤ limit

/-- No entry excludes the test on the platform. -/
def notExcluded (list : ExcludeList) (platform : Platform) (test : Description) : Bool :=
  (list.excludes? test platform).isNone

/-- The test or its file is listed. -/
def listed (list : MatchList) (test : Description) : Bool := list.contains test

/-- The context in which exactly the keywords of a test are true. -/
def keywordContext (test : Description) : Context :=
  Context.ofPairs (test.keywords.names.map (·, "true"))

/-- Whether an expression holds of the keywords of the test. -/
def keywords (e : Expr) (test : Description) : Except Fault Bool := e.holds (keywordContext test)

/-- What an earlier run made of a test. -/
def priorOf (prior : Table PriorStatus) (url : String) : PriorStatus :=
  (prior.get? url).getD .notRun

/-- What an earlier run made of the test is one of the wanted outcomes. -/
def priorStatus (wanted : List PriorStatus) (prior : Table PriorStatus) (test : Description) :
    Bool :=
  wanted.contains (priorOf prior test.url)

end Decision

end TestSelection
