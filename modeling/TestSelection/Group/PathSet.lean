import TestSelection.FileTree
import TestSelection.Suite.Config

/-!
Sets of paths that stand for everything below them. No entry of a set is below another one: a path
is not added below an entry, and takes the place of entries below it. What remains of a path when
others are taken away is found by opening the folders above them.
-/

namespace TestSelection

/-- The paths of a set, in order. -/
abbrev PathSet := List Path

namespace PathSet

/-- Adds a path, unless it is an entry or below one, and drops the entries below it. -/
def add (s : PathSet) (p : Path) : PathSet :=
  if s.any p.isWithin then s
  else p.insertOrdered (s.filter fun q => !q.isWithin p)

def ofList (paths : List Path) : PathSet := paths.foldl add []

end PathSet

/-- Which entries of a folder count when it is opened. -/
structure PathRules where
  /-- The extensions of the files that count; none stands for all. -/
  extensions : NameSet
  /-- The names of the folders that do not count. -/
  ignored : NameSet
deriving DecidableEq

namespace PathRules

/-- The rules of two lists; an extension may be written with points before it. -/
def new (extensions ignored : List String) : PathRules :=
  ⟨NameSet.ofNames (extensions.map (Text.dropFront '.')), NameSet.ofNames ignored⟩

def forSuite (suite : SuiteConfig) (extensions : List String) : PathRules :=
  new extensions suite.ignoredNames.names

/-- Whether what a path leads to counts as an entry of a folder. -/
def admits (r : PathRules) (tree : FileTree) (p : Path) : Bool :=
  if tree.hasFolder p then !r.ignored.contains (p.fileName?.getD "")
  else
    r.extensions.entries.isEmpty ||
      (match p.extension? with
        | some extension => r.extensions.contains extension
        | none => false)

/-- What remains of a path when others are taken away, with at most so many folders opened one below
the other. -/
def remaining (r : PathRules) (tree : FileTree) (excluded : List Path) : Nat → Path → List Path
  | 0, p => if excluded.any p.isWithin then [] else [p]
  | depth + 1, p =>
    if excluded.any p.isWithin then []
    else if excluded.any (·.isBelow p) && tree.hasFolder p then
      ((tree.children p).filter (r.admits tree)).flatMap fun q => r.remaining tree excluded depth q
    else [p]

/-- What remains of a path when others are taken away. The paths of the entries of a folder are
longer than its own, and paths that are too long cannot be followed, so there is no need to open
more folders one below the other than a path has bytes. -/
def subtract (r : PathRules) (tree : FileTree) (p : Path) (excluded : List Path) : List Path :=
  r.remaining tree excluded (FileTree.maxFollowedBytes + 1) p

end PathRules

end TestSelection
