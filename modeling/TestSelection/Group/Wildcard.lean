import TestSelection.FileTree

/-!
Wildcards: in the last part of a path a star stands for any run of characters.
-/

namespace TestSelection

namespace Wildcard

/-- What follows the first occurrence of a text. -/
def afterFirst? (part : List Char) : List Char → Option (List Char)
  | [] => if part = [] then some [] else none
  | c :: s =>
    match Chars.after? part (c :: s) with
    | some rest => some rest
    | none => afterFirst? part s

/-- Whether parts follow each other in a name with anything between them, the last one at its
end. -/
def matchesParts : List (List Char) → List Char → Bool
  | [], rest => rest.isEmpty
  | [last], rest => (Chars.before? last rest).isSome
  | part :: parts, rest =>
    match afterFirst? part rest with
    | some rest => matchesParts parts rest
    | none => false

/-- Whether a name has the form of a pattern. -/
def matchesPattern (pattern name : List Char) : Bool :=
  match Chars.splitAt '*' pattern with
  | [] => false
  | first :: parts =>
    match Chars.after? first name with
    | some rest => matchesParts parts rest
    | none => false

end Wildcard

namespace Path

/-- Whether the last part of a path has a star. -/
def hasWildcard (p : Path) : Bool := (p.fileName?.map (Text.has '*')).getD false

/-- The entries of the parent of a path whose names have the form of its last part. -/
def expandWildcard (p : Path) (tree : FileTree) : List Path :=
  match p.parent?, p.fileName? with
  | some parent, some pattern =>
    (tree.children parent).filter fun child =>
      match child.fileName? with
      | some name => Wildcard.matchesPattern pattern.toList name.toList
      | none => false
  | _, _ => []

end Path

end TestSelection
