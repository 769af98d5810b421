import TestSelection.Context.Basic
import TestSelection.Toml.Record

/-!
Contexts as they are stored in JSON: a record with a table of facts, each of which names its kind
and has a text.
-/

namespace TestSelection

open ConfigValue

def Fact.ofValue? (v : ConfigValue) : Option Fact := do
  let fields ← fullRecord? .json ["kind", "value"] v
  let text ← fieldOf fields "value" text?
  match ← fieldOf fields "kind" (choice? .json) with
  | "value" => some (.value text)
  | "error" => some (.unknown text)
  | _ => none

/-- The context that a value stands for; no entry is added to it. -/
def Context.ofValue? (v : ConfigValue) : Option Context := do
  let fields ← fullRecord? .json ["entries"] v
  return ⟨← fieldOf fields "entries" (tableOf? Fact.ofValue?)⟩

end TestSelection
