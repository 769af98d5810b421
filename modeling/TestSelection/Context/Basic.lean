import TestSelection.Table

/-!
Contexts: the facts that expressions are evaluated against. A fact is a text, or the reason why it
could not be determined. The name `null` stands for the text `null`, as does every name without an
entry.
-/

namespace TestSelection

/-- The text of a fact that is not there. -/
def nullText : String := "null"

inductive Fact
  | value (text : String)
  /-- The fact could not be determined. -/
  | unknown (reason : String)
deriving DecidableEq, Inhabited

/-- The facts of one run by name. -/
structure Context where
  facts : Table Fact
deriving DecidableEq

namespace Context

/-- Only the name `null` has an entry. -/
def empty : Context := ⟨Table.empty.insert nullText (.value nullText)⟩

instance : Inhabited Context := ⟨empty⟩

def get? (c : Context) (name : String) : Option Fact := c.facts.get? name

def put (c : Context) (name : String) (fact : Fact) : Context := ⟨c.facts.insert name fact⟩

/-- Sets a value, whatever entry the name had. -/
def set (c : Context) (name value : String) : Context := c.put name (.value value)

/-- Records why a fact could not be determined. -/
def setUnknown (c : Context) (name reason : String) : Context := c.put name (.unknown reason)

/-- Sets a value for a name that has no entry. -/
def setNew (c : Context) (name value : String) : Context := ⟨c.facts.insertNew name (.value value)⟩

def contains (c : Context) (name : String) : Bool := c.facts.contains name

def value? (c : Context) (name : String) : Option String :=
  match c.get? name with
  | some (.value text) => some text
  | _ => none

/-- The number of entries, the one of `null` counted. -/
def size (c : Context) : Nat := c.facts.size

/-- Whether there is no more than one entry. -/
def isEmpty (c : Context) : Bool := c.size ≤ 1

/-- The context of a list of values; the last value of a name counts. -/
def ofPairs (pairs : List (String × String)) : Context :=
  pairs.foldl (fun c (name, value) => c.set name value) empty

/-- Sets all values of a list, then records all failures of another. -/
def withFacts (c : Context) (values failures : List (String × String)) : Context :=
  failures.foldl (fun c (name, reason) => c.setUnknown name reason)
    (values.foldl (fun c (name, value) => c.set name value) c)

theorem get?_put (c : Context) (name other : String) (fact : Fact) :
    (c.put name fact).get? other = if name = other then some fact else c.get? other :=
  c.facts.get?_insert name other fact

theorem get?_setNew (c : Context) (name other value : String) :
    (c.setNew name value).get? other
      = if name = other ∧ c.get? name = none then some (.value value) else c.get? other :=
  c.facts.get?_insertNew name other (.value value)

theorem get?_empty_null : empty.get? nullText = some (.value nullText) := by
  simp [empty, get?, Table.get?_insert]

end Context

end TestSelection
