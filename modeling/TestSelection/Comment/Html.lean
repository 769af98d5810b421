import TestSelection.Comment.Basic

/-!
HTML comments, as in `<!-- … -->`. A comment that is not closed goes on to the end of the source.
-/

namespace TestSelection.Comment

def htmlComment (opened : Nat) (backwards : List Char) : Comment :=
  ⟨opened, clean Chars.trim backwards.reverse⟩

/-- The comments of the rest of a source, which starts on the given line; `open?` is the comment
that is still open, with its line and its body so far, the last character first. -/
def htmlFrom (line : Nat) : Option (Nat × List Char) → List Char → List Comment
  | some (opened, text), [] => [htmlComment opened text]
  | none, [] => []
  | none, '<' :: '!' :: '-' :: '-' :: s => htmlFrom line (some (line, [])) s
  | none, c :: s => htmlFrom (if c = '\n' then line + 1 else line) none s
  | some (opened, text), '-' :: '-' :: '>' :: s =>
    htmlComment opened text :: htmlFrom line none s
  | some (opened, text), c :: s =>
    htmlFrom (if c = '\n' then line + 1 else line) (some (opened, c :: text)) s

def htmls (source : List Char) : List Comment := htmlFrom 1 none source

end TestSelection.Comment
