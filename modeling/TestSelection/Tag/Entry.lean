import TestSelection.Text

/-!
Tags: what a comment says of a test. A tag starts on a line whose first character, blanks apart, is
an at sign with an ASCII letter behind it, and goes on up to the next such line. Lines before the
first tag belong to none.
-/

namespace TestSelection

/-- A tag of a comment. -/
structure TagEntry where
  /-- The name with its options, without the at sign. -/
  name : String
  /-- The lines of the value, blanks around them dropped and blank ones left out. -/
  value : String
  /-- The line of the comment, counted from zero, on which the tag starts. -/
  line : Nat
deriving DecidableEq

namespace TagEntry

def baseName (e : TagEntry) : String :=
  String.ofList (e.name.toList.takeWhile (· != '/'))

/-- The options behind the slashes of the name, empty ones left out. -/
def options (e : TagEntry) : List String :=
  (((Chars.splitAt '/' e.name.toList).drop 1).filter (!·.isEmpty)).map String.ofList

def hasOptions (e : TagEntry) : Bool := Text.has '/' e.name

def flat (e : TagEntry) : String := Text.fold e.value

/-- The name and the rest of a trimmed line that starts a tag. -/
def start? : List Char → Option (List Char × List Char)
  | '@' :: c :: s =>
    if c.isAlpha then
      some ((c :: s).takeWhile (!Chars.isBlank ·), (c :: s).dropWhile (!Chars.isBlank ·))
    else none
  | _ => none

/-- Adds a trimmed line to a value. -/
def extend (e : TagEntry) (line : List Char) : TagEntry :=
  if line = [] then e
  else if e.value.isEmpty then { e with value := String.ofList line }
  else { e with value := e.value ++ "\n" ++ String.ofList line }

/-- Takes a line of a comment; the entries so far stand with the last one first. -/
def addLine (entries : List TagEntry) (number : Nat) (line : List Char) : List TagEntry :=
  let line := Chars.trim line
  match start? line with
  | some (name, rest) => ⟨String.ofList name, String.ofList (Chars.trim rest), number⟩ :: entries
  | none =>
    match entries with
    | [] => []
    | e :: before => e.extend line :: before

/-- The tags of the lines from the given number on; the entries so far stand with the last one
first. -/
def ofLines (entries : List TagEntry) (number : Nat) : List (List Char) → List TagEntry
  | [] => entries.reverse
  | line :: rest => ofLines (addLine entries number line) (number + 1) rest

def ofComment (comment : String) : List TagEntry := ofLines [] 0 (Chars.lines comment.toList)

/-- Whether the tags declare a test: the first one says so. -/
def declareTest (entries : List TagEntry) : Bool :=
  match entries with
  | [] => false
  | e :: _ => e.name == "test"

end TagEntry

end TestSelection
