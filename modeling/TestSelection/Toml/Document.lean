import TestSelection.Table
import TestSelection.Toml.Scalar

/-!
TOML documents: lines that set keys, and headers that open tables and items of lists of tables. A
table may be made in three ways, and which of them it was made in decides what may still be added to
it. A document either is right and stands for one table, or is wrong.
-/

namespace TestSelection.Toml

/-- How a table came to be. -/
inductive TableForm
  /-- As a part of the name in a header. -/
  | implied
  /-- As a part of a key with points. -/
  | dotted
  /-- By a header of its own. -/
  | headed
deriving DecidableEq

/-- What a key of a table under construction stands for. -/
inductive Node
  /-- A value, to which nothing can be added. -/
  | value (v : ConfigValue)
  | table (form : TableForm) (entries : List (String × Node))
  /-- A list of tables, the last one first. -/
  | tables (items : List Node)
deriving Inhabited

/-- The entries of a table under construction. -/
abbrev Entries := List (String × Node)

namespace Node

mutual

def toValue : Node → ConfigValue
  | value v => v
  | table _ entries => .table (toFields entries)
  | tables items => .list (toItems items).reverse

def toFields : List (String × Node) → List (String × ConfigValue)
  | [] => []
  | (name, node) :: rest => (name, node.toValue) :: toFields rest

def toItems : List Node → List ConfigValue
  | [] => []
  | node :: rest => node.toValue :: toItems rest

end

end Node

/-- Sets a key with points, which must be new. The tables on the way are made, or must not have a
header of their own; the last of them must have been made in this way. A list of tables on the way
leads to its last one. -/
def assign (v : ConfigValue) : List String → Entries → Option Entries
  | [], _ => none
  | [key], es => if (Table.find? key es).isSome then none else some (Table.place key (.value v) es)
  | key :: next :: rest, es =>
    match Table.find? key es with
    | none => (assign v (next :: rest) []).map fun sub => Table.place key (.table .dotted sub) es
    | some (.table form sub) =>
      if form = .headed ∨ (rest = [] ∧ form ≠ .dotted) then none
      else (assign v (next :: rest) sub).map fun sub => Table.place key (.table form sub) es
    | some (.tables (.table form sub :: before)) =>
      if rest = [] then none
      else (assign v (next :: rest) sub).map fun sub =>
        Table.place key (.tables (.table form sub :: before)) es
    | some _ => none

/-- Changes the table that the name in a header leads to. Tables on the way are made; a list of
tables leads to its last one. -/
def within (f : Entries → Option Entries) : List String → Entries → Option Entries
  | [], es => f es
  | key :: rest, es =>
    match Table.find? key es with
    | none => (within f rest []).map fun sub => Table.place key (.table .implied sub) es
    | some (.table form sub) =>
      (within f rest sub).map fun sub => Table.place key (.table form sub) es
    | some (.tables (.table form sub :: before)) =>
      (within f rest sub).map fun sub => Table.place key (.tables (.table form sub :: before)) es
    | some _ => none

def openTable (key : String) (es : Entries) : Option Entries :=
  match Table.find? key es with
  | none => some (Table.place key (.table .headed []) es)
  | some (.table .implied sub) => some (Table.place key (.table .headed sub) es)
  | some _ => none

/-- Opens a further item of a list of tables. -/
def openItem (key : String) (es : Entries) : Option Entries :=
  match Table.find? key es with
  | none => some (Table.place key (.tables [.table .headed []]) es)
  | some (.tables items) => some (Table.place key (.tables (.table .headed [] :: items)) es)
  | some _ => none

def continuesKey (c : Char) : Bool := c.isAlphanum || c == '_' || c == '-'

/-- Blanks within a line are dropped at the front. -/
def dropGaps (s : List Char) : List Char := s.dropWhile isGap

def keyPart : List Char → Read String
  | '"' :: s => (basicText s s).map fun (t, rest) => (String.ofList t, rest)
  | '\'' :: s => (literalText s).map fun (t, rest) => (String.ofList t, rest)
  | s =>
    let raw := s.takeWhile continuesKey
    if raw = [] then none else some (String.ofList raw, s.dropWhile continuesKey)

def keyParts : List Char → List Char → Option (List String × List Char)
  | [], _ => none
  | _ :: turns, s => do
    let (part, rest) ← keyPart s
    match dropGaps rest with
    | '.' :: rest =>
      let (parts, rest) ← keyParts turns (dropGaps rest)
      return (part :: parts, rest)
    | rest => return ([part], rest)

/-- The most parts that a key may have. -/
def maxKeyParts : Nat := 80

def key (s : List Char) : Option (List String × List Char) :=
  (keyParts s s).filter fun (parts, _) => parts.length ≤ maxKeyParts

/-- A comment is dropped at the front; it may hold plain characters only, up to the line break. -/
def dropComment (s : List Char) : Option (List Char) :=
  match s with
  | '#' :: rest =>
    let rest := rest.dropWhile isPlain
    if rest = [] ∨ (lineBreak? rest).isSome then some rest else none
  | s => some s

/-- Blanks, line breaks and comments are dropped at the front. -/
def dropTrivia : List Char → List Char → Option (List Char)
  | [], s => some s
  | _ :: turns, s =>
    match dropGaps s with
    | '#' :: rest =>
      match dropComment ('#' :: rest) with
      | some rest => dropTrivia turns rest
      | none => none
    | s =>
      match lineBreak? s with
      | some rest => dropTrivia turns rest
      | none => some s

/-- The items of a list behind its bracket; a comma may stand behind the last one. -/
def listItems (item : List Char → Read ConfigValue) :
    List Char → List Char → Option (List ConfigValue × List Char)
  | [], _ => none
  | _ :: turns, s => do
    match ← dropTrivia s s with
    | ']' :: rest => return ([], rest)
    | s =>
      let (v, rest) ← item s
      match ← dropTrivia rest rest with
      | ',' :: rest =>
        let (vs, rest) ← listItems item turns rest
        return (v :: vs, rest)
      | ']' :: rest => return ([v], rest)
      | _ => none

/-- The entries of a table in braces behind the first brace; a comma may stand behind the last
one, and line breaks and comments everywhere but within keys. -/
def braceEntries (item : List Char → Read ConfigValue) :
    List Char → Entries → List Char → Option (Entries × List Char)
  | [], _, _ => none
  | _ :: turns, es, s => do
    match ← dropTrivia s s with
    | '\x7d' :: rest => return (es, rest)
    | s =>
      let (path, rest) ← key s
      match ← dropTrivia rest rest with
      | '=' :: rest =>
        let (v, rest) ← item (← dropTrivia rest rest)
        let es ← assign v path es
        match ← dropTrivia rest rest with
        | ',' :: rest => braceEntries item turns es rest
        | '\x7d' :: rest => return (es, rest)
        | _ => none
      | _ => none

/-- How deep lists and tables in braces may stand in each other. -/
def maxNesting : Nat := 80

/-- A value, with so many levels of lists and braces inside. -/
def value : Nat → List Char → Read ConfigValue
  | depth + 1, '[' :: s => (listItems (value depth) s s).map fun (vs, rest) => (.list vs, rest)
  | depth + 1, '\x7b' :: s =>
    (braceEntries (value depth) s [] s).map fun (es, rest) => (.table (Node.toFields es), rest)
  | 0, '[' :: _ => none
  | 0, '\x7b' :: _ => none
  | _, s => scalar s

/-- A document that has been read in part. -/
structure Draft where
  root : Entries
  /-- The table that keys are set in. -/
  header : List String

/-- What follows the end of a line, which may have a comment. -/
def lineEnd (s : List Char) : Option (List Char) := do
  match ← dropComment (dropGaps s) with
  | [] => return []
  | rest => lineBreak? rest

/-- Opens the table or item that a header names. -/
def Draft.open (d : Draft) (f : String → Entries → Option Entries) (path : List String) :
    Option Draft := do
  let last ← path.getLast?
  let root ← within (f last) path.dropLast d.root
  return ⟨root, path⟩

/-- A line of a document that is neither blank nor only a comment. -/
def line (d : Draft) (s : List Char) : Option (Draft × List Char) :=
  match s with
  | '[' :: '[' :: s => do
    let (path, rest) ← key (dropGaps s)
    match dropGaps rest with
    | ']' :: ']' :: rest => return (← d.open openItem path, rest)
    | _ => none
  | '[' :: s => do
    let (path, rest) ← key (dropGaps s)
    match dropGaps rest with
    | ']' :: rest => return (← d.open openTable path, rest)
    | _ => none
  | s => do
    let (path, rest) ← key s
    match dropGaps rest with
    | '=' :: rest =>
      let (v, rest) ← value maxNesting (dropGaps rest)
      return ({ d with root := ← within (assign v path) d.header d.root }, rest)
    | _ => none

def lines : List Char → Draft → List Char → Option Draft
  | [], d, _ => some d
  | _ :: turns, d, s => do
    match ← dropTrivia s s with
    | [] => return d
    | s =>
      let (d, rest) ← line d s
      lines turns d (← lineEnd rest)

/-- A mark at the front that says nothing but how the text is encoded is dropped. -/
def dropMark : List Char → List Char
  | '\uFEFF' :: s => s
  | s => s

def parse? (text : String) : Option ConfigValue := do
  let s := dropMark text.toList
  let d ← lines s ⟨[], []⟩ s
  return .table (Node.toFields d.root)

end TestSelection.Toml
