import TestSelection.Text

/-!
Comments of source files, and the three styles in which they are written. A comment is kept with the
line on which it opens and without its decoration.
-/

namespace TestSelection

/-- How the comments of a file are written. -/
inductive CommentStyle
  /-- Between a slash with a star and a star with a slash. -/
  | block
  /-- Behind number signs. -/
  | shell
  /-- As in HTML. -/
  | html
deriving DecidableEq, Repr

namespace CommentStyle

def all : List CommentStyle := [block, shell, html]

def label : CommentStyle → String
  | block => "block"
  | shell => "shell"
  | html => "html"

def ofLabel? (name : String) : Option CommentStyle := all.find? (·.label == name)

end CommentStyle

/-- A comment without its decoration. -/
structure Comment where
  /-- The line on which the comment opens, counted from one. -/
  line : Nat
  text : String
deriving DecidableEq

namespace Comment

/-- The text of a comment from its body, each line of which is cleaned. -/
def clean (cleanLine : List Char → List Char) (body : List Char) : String :=
  Text.unlines ((Chars.lines body).map fun line => String.ofList (cleanLine line))

def lineFeeds (s : List Char) : Nat := s.count '\n'

end Comment

end TestSelection
