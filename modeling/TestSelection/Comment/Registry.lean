import TestSelection.Comment.Block
import TestSelection.Comment.Html
import TestSelection.Comment.Shell
import TestSelection.Path
import TestSelection.Table

/-!
Which style of comments a file has is decided by its extension.
-/

namespace TestSelection

/-- The comments of a source in a style. -/
def CommentStyle.extract (style : CommentStyle) (source : String) : List Comment :=
  match style with
  | block => Comment.blocks source.toList
  | shell => Comment.shells source.toList
  | html => Comment.htmls source.toList

/-- The styles of extensions. -/
structure CommentRegistry where
  styles : Table CommentStyle
deriving DecidableEq

namespace CommentRegistry

def empty : CommentRegistry := ⟨Table.empty⟩

/-- Sets the style of an extension, which may be written with points before it. -/
def register (r : CommentRegistry) (extension : String) (style : CommentStyle) : CommentRegistry :=
  ⟨r.styles.insert (Text.dropFront '.' extension) style⟩

/-- Sets the styles of several extensions from left to right. -/
def registerAll (r : CommentRegistry) (styles : List (String × CommentStyle)) : CommentRegistry :=
  styles.foldl (fun r (extension, style) => r.register extension style) r

/-- The extensions that are known without a configuration. -/
def defaultStyles : List (String × CommentStyle) :=
  [("java", .block), ("jasm", .block), ("jcod", .block), ("sh", .shell), ("html", .html)]

def defaults : CommentRegistry := empty.registerAll defaultStyles

def styleOf? (r : CommentRegistry) (p : Path) : Option CommentStyle :=
  p.extension?.bind r.styles.get?

def supports (r : CommentRegistry) (p : Path) : Bool := (r.styleOf? p).isSome

def extensions (r : CommentRegistry) : List String := r.styles.names

end CommentRegistry

end TestSelection
