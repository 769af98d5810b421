import TestSelection.Text

/-!
Properties files: keys with values. A line that ends in an odd number of backslashes goes on in the
next one. Blank lines, and lines that start with a number sign or an exclamation mark, say nothing
unless an earlier line goes on in them. A key set twice keeps its place and takes the later value.
-/

namespace TestSelection

/-- A key with its value. -/
structure Property where
  key : String
  value : String
  /-- The line on which the key stands, counted from one. -/
  line : Nat
deriving DecidableEq

namespace Property

/-- Whether a line goes on in the next one. -/
def continues (line : List Char) : Bool := (line.reverse.takeWhile (· == '\\')).length % 2 == 1

/-- Whether a line, blanks at its front dropped, says nothing. -/
def saysNothing (line : List Char) : Bool :=
  match line with
  | [] => true
  | c :: _ => c == '#' || c == '!'

/-- A whole line from its pieces, the last one first. -/
def whole (pieces : List (List Char)) : List Char := pieces.reverse.flatten

/-- Joins lines that go on to whole ones, from the given line on; `pending` is the line that goes on
in the present one, with the number that it starts at. -/
def joinLines (number : Nat) (pending : Option (Nat × List (List Char))) :
    List (List Char) → List (Nat × List Char)
  | [] => (pending.map fun (start, before) => (start, whole before)).toList
  | raw :: rest =>
    let line := Chars.trimStart raw
    match pending with
    | none =>
      if saysNothing line then joinLines (number + 1) none rest
      else if continues line then joinLines (number + 1) (some (number, [line.dropLast])) rest
      else (number, line) :: joinLines (number + 1) none rest
    | some (start, before) =>
      if continues line then joinLines (number + 1) (some (start, line.dropLast :: before)) rest
      else (start, whole (line :: before)) :: joinLines (number + 1) none rest

/-- What ends a key. -/
def endsKey (c : Char) : Bool := c == '=' || c == ':' || Chars.isBlank c

/-- The key and the value of a whole line; a sign and the blanks around it stand between them. -/
def split (line : List Char) : List Char × List Char :=
  let key := line.takeWhile (!endsKey ·)
  let rest := Chars.trimStart (line.dropWhile (!endsKey ·))
  let rest := match rest with
    | '=' :: rest | ':' :: rest => Chars.trimStart rest
    | rest => rest
  (key, Chars.trimEnd rest)

/-- Sets a property, at the place of an earlier one with its key or else at the end. -/
def set (p : Property) : List Property → List Property
  | [] => [p]
  | q :: rest => if q.key = p.key then p :: rest else q :: set p rest

def ofText (text : String) : List Property :=
  (joinLines 1 none (Chars.lines text.toList)).foldl (fun ps (number, line) =>
    let (key, value) := split line
    set ⟨String.ofList key, String.ofList value, number⟩ ps) []

end Property

end TestSelection
