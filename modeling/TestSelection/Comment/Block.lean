import TestSelection.Comment.Basic

/-!
Block comments, as in `/* … */`. What stands behind two slashes up to the end of the line, or inside
a literal in single or double quotes, opens no comment; a literal ends at the end of its line at the
latest. A comment that is not closed goes on to the end of the source.
-/

namespace TestSelection.Comment

/-- Where in a source a character stands. -/
inductive BlockState
  | code
  /-- Behind two slashes. -/
  | lineComment
  /-- In a literal that the given character closes. -/
  | literal (quote : Char)
  /-- In a comment that opened on the given line; its body so far, the last character first. -/
  | body (opened : Nat) (text : List Char)
deriving DecidableEq

/-- Blanks and then stars are dropped at the front of a line, and blanks at its end. -/
def cleanBlockLine (line : List Char) : List Char :=
  Chars.trimEnd (Chars.dropFront '*' (Chars.trimStart line))

/-- The comment of a body that was gathered backwards. -/
def blockComment (opened : Nat) (backwards : List Char) : Comment :=
  ⟨opened, clean cleanBlockLine backwards.reverse⟩

/-- The comments of the rest of a source, which starts on the given line in the given state. -/
def blocksFrom (line : Nat) : BlockState → List Char → List Comment
  | .body opened text, [] => [blockComment opened text]
  | _, [] => []
  | .code, '\n' :: s => blocksFrom (line + 1) .code s
  | .code, '/' :: '/' :: s => blocksFrom line .lineComment s
  | .code, '/' :: '*' :: s => blocksFrom line (.body line []) s
  | .code, c :: s =>
    blocksFrom line (if c = '"' ∨ c = '\'' then .literal c else .code) s
  | .lineComment, c :: s =>
    if c = '\n' then blocksFrom (line + 1) .code s else blocksFrom line .lineComment s
  | .literal quote, '\\' :: c :: s =>
    if c = '\n' then blocksFrom (line + 1) .code s else blocksFrom line (.literal quote) s
  | .literal quote, c :: s =>
    if c = '\n' then blocksFrom (line + 1) .code s
    else blocksFrom line (if c = quote then .code else .literal quote) s
  | .body opened text, '*' :: '/' :: s =>
    blockComment opened text :: blocksFrom line .code s
  | .body opened text, c :: s =>
    blocksFrom (if c = '\n' then line + 1 else line) (.body opened (c :: text)) s

def blocks (source : List Char) : List Comment := blocksFrom 1 .code source

end TestSelection.Comment
