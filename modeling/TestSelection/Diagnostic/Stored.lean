import TestSelection.Diagnostic
import TestSelection.Toml.Record

/-!
Diagnostics as they are read back from JSON: from the lines that a log writes, or from records in
another order, with more fields or with nulls where nothing is set.
-/

namespace TestSelection

open ConfigValue

namespace Diagnostic

def fieldNames : List String := ["kind", "path", "url", "message"]

/-- The diagnostic that a value stands for. No field may be given twice. -/
def ofValue? (v : ConfigValue) : Option Diagnostic := do
  let fields ← fullRecord? .json fieldNames v
  if fieldNames.all fun name => fields.countP (·.1 == name) ≤ 1 then
    return {
      kind := ← fieldOf fields "kind" fun v => (choice? .json v).bind DiagnosticKind.ofLabel?
      path := (← fieldOr fields "path" (optional? text?) none).map Path.mk
      url := ← fieldOr fields "url" (optional? text?) none
      message := ← fieldOf fields "message" text? }
  else none

end Diagnostic

end TestSelection
