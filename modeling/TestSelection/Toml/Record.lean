import TestSelection.Table
import TestSelection.Text
import TestSelection.Toml.Value

/-!
Reading values as texts, numbers, lists, tables, choices and records. A choice is written as its
name or as a table with that one key; a record as a table or as the list of its fields. The formats
differ in what may stand under the key of a choice and behind the last field of a record.
-/

namespace TestSelection

namespace ConfigValue

def bool? : ConfigValue → Option Bool
  | bool b => some b
  | _ => none

def text? : ConfigValue → Option String
  | text s => some s
  | _ => none

def count? : ConfigValue → Option Nat
  | int n => if 0 ≤ n ∧ n ≤ Chars.maxCount then some n.toNat else none
  | _ => none

/-- A list of values of one type. -/
def listOf? {α : Type} (item : ConfigValue → Option α) : ConfigValue → Option (List α)
  | list vs => vs.mapM item
  | _ => none

def texts? : ConfigValue → Option (List String) := listOf? text?

def tableOf? {α : Type} (item : ConfigValue → Option α) : ConfigValue → Option (Table α)
  | table entries =>
    (entries.mapM fun (e : String × ConfigValue) => (item e.2).map (e.1, ·)).map Table.ofList
  | _ => none

def optional? {α : Type} (item : ConfigValue → Option α) : ConfigValue → Option (Option α)
  | null => some none
  | v => (item v).map some

/-- What stands under a key that is itself the choice. -/
def isEmptyChoice : ConfigFormat → ConfigValue → Bool
  | .toml, list [] | .toml, table [] | .json, null => true
  | _, _ => false

/-- The name of a choice. -/
def choice? (format : ConfigFormat) : ConfigValue → Option String
  | text name => some name
  | table [(name, content)] => if isEmptyChoice format content then some name else none
  | _ => none

/-- The fields of a record under the given names; in a list they stand in the order of the names.
Fields that are not known have to be readable; items beyond the names are passed over in TOML and
are wrong in JSON. -/
def record? (format : ConfigFormat) (names : List String) :
    ConfigValue → Option (List (String × ConfigValue))
  | table entries =>
    if haveReadable (entries.filter fun (name, _) => !names.contains name) then some entries
    else none
  | list vs =>
    if format = .toml ∨ vs.length ≤ names.length then some (names.zip vs) else none
  | _ => none

/-- The fields of a record under the given names, none of which may be missing in a list. -/
def fullRecord? (format : ConfigFormat) (names : List String) :
    ConfigValue → Option (List (String × ConfigValue))
  | list vs => if vs.length = names.length then some (names.zip vs) else none
  | v => record? format names v

/-- The value of a field, or the usual one if the field is missing. -/
def fieldOr {α : Type} (fields : List (String × ConfigValue)) (name : String)
    (item : ConfigValue → Option α) (usual : α) : Option α :=
  match fields.lookup name with
  | some v => item v
  | none => some usual

/-- The value of a field that has to be there. -/
def fieldOf {α : Type} (fields : List (String × ConfigValue)) (name : String)
    (item : ConfigValue → Option α) : Option α :=
  (fields.lookup name).bind item

end ConfigValue

end TestSelection
