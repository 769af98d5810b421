import TestSelection.Text

/-!
The outcome of a test in an earlier run.
-/

namespace TestSelection

/-- What an earlier run made of a test. -/
inductive PriorStatus
  | passed | failed | error | notRun
deriving DecidableEq, Repr, Inhabited

namespace PriorStatus

def all : List PriorStatus := [passed, failed, error, notRun]

def label : PriorStatus → String
  | passed => "passed"
  | failed => "failed"
  | error => "error"
  | notRun => "not_run"

def ofLabel? (name : String) : Option PriorStatus := all.find? (·.label == name)

/-- The outcome that a word stands for, in large or small letters; three have a second word. -/
def parse (word : String) : Except String PriorStatus :=
  match Text.lower word with
  | "passed" | "pass" => .ok passed
  | "failed" | "fail" => .ok failed
  | "error" => .ok error
  | "not_run" | "notrun" => .ok notRun
  | other => .error s!"unknown test status: {other}"

end PriorStatus

end TestSelection
