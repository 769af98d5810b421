import TestSelection.Comment.Basic

/-!
Shell comments: each maximal run of lines that start, blanks apart, with a number sign. A line that
starts with a number sign and an exclamation mark is none of them.
-/

namespace TestSelection.Comment

/-- What a line of a shell comment says. -/
def shellLine? (line : List Char) : Option (List Char) :=
  match Chars.trimStart line with
  | '#' :: '!' :: _ => none
  | '#' :: body => some (Chars.trim body)
  | _ => none

/-- The comment of a run of lines, the last line first. -/
def shellComment (line : Nat) (backwards : List (List Char)) : Comment :=
  ⟨line, Text.unlines (backwards.reverse.map String.ofList)⟩

/-- The comments of the lines from the given one on; `run` is the comment that is still open, with
its first line and what its lines say, the last one first. -/
def shellRuns (line : Nat) (run : Option (Nat × List (List Char))) :
    List (List Char) → List Comment
  | [] => (run.map fun (start, said) => shellComment start said).toList
  | l :: rest =>
    match shellLine? l, run with
    | some said, some (start, before) => shellRuns (line + 1) (some (start, said :: before)) rest
    | some said, none => shellRuns (line + 1) (some (line, [said])) rest
    | none, some (start, said) => shellComment start said :: shellRuns (line + 1) none rest
    | none, none => shellRuns (line + 1) none rest

def shells (source : List Char) : List Comment := shellRuns 1 none (Chars.lines source)

end TestSelection.Comment
