/-!
The values that a configuration document is made of.
-/

namespace TestSelection

/-- The formats of configurations. They differ in how strictly lists and choices are read. -/
inductive ConfigFormat
  | toml
  | json
deriving DecidableEq

/-- A value of a document. -/
inductive ConfigValue
  /-- The value that stands for an absent one. -/
  | null
  | bool (value : Bool)
  | int (value : Int)
  /-- A number with a fraction, which no configuration asks for. -/
  | fraction
  /-- A number too large for every type of numbers. It spoils a document where it is read, even if
  the field is not known. -/
  | outOfRange
  | text (text : String)
  | list (items : List ConfigValue)
  | table (entries : List (String × ConfigValue))
deriving Inhabited

namespace ConfigValue

/-- The value of a field of a table. -/
def field? (name : String) : ConfigValue → Option ConfigValue
  | table entries => entries.lookup name
  | _ => none

/-- The field under which the text of a date or time is kept. No configuration knows it. -/
def momentField : String := "$moment"

/-- A date or time, which is read as a table with a single field. -/
def moment (written : String) : ConfigValue := table [(momentField, text written)]

mutual

/-- A value in which no number is out of range. -/
def isReadable : ConfigValue → Bool
  | outOfRange => false
  | list items => areReadable items
  | table entries => haveReadable entries
  | null | bool _ | int _ | fraction | text _ => true

def areReadable : List ConfigValue → Bool
  | [] => true
  | v :: rest => v.isReadable && areReadable rest

def haveReadable : List (String × ConfigValue) → Bool
  | [] => true
  | (_, v) :: rest => v.isReadable && haveReadable rest

end

end ConfigValue

end TestSelection
