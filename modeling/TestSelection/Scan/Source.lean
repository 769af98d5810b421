import TestSelection.Tag.Description

/-!
The tests that one source declares. Each comment whose first tag says so declares a test. If there
are several, those without an id of their own get a numbered one: the place among the declarations
counted from zero, or the next number that is still free.
-/

namespace TestSelection

/-- What a scan goes by. -/
structure ScanConfig where
  root : Path
  suite : SuiteConfig
  registry : CommentRegistry
  knownNames : KnownNames
  /-- The names of directories that are not looked into. -/
  ignored : NameSet

namespace ScanConfig

/-- What a suite's configuration says of scans below a root. -/
def forSuite (root : Path) (suite : SuiteConfig) : ScanConfig :=
  ⟨root, suite, suite.commentRegistry, suite.knownNames, suite.ignoredNames⟩

def rulesFor (c : ScanConfig) (dir : DirectoryProperties) : TagRules :=
  ⟨c.knownNames, c.suite.bugValidation, dir.keys⟩

end ScanConfig

def Comment.declaresTest (c : Comment) : Bool := TagEntry.declareTest (TagEntry.ofComment c.text)

/-- A declaration and the line of its comment. -/
structure LocatedDeclaration where
  line : Nat
  declaration : Declaration

namespace LocatedDeclaration

def ofComment (rules : TagRules) (comment : Comment) : LocatedDeclaration :=
  ⟨comment.line, Declaration.ofEntries rules (TagEntry.ofComment comment.text)⟩

def ofComments (rules : TagRules) (comments : List Comment) : List LocatedDeclaration :=
  (comments.filter Comment.declaresTest).map (ofComment rules)

def numberedId (number : Nat) : String := "id" ++ toString number

/-- The least number from the given one on whose id is not taken. Of the numbers tried one more than
there are ids taken, so one of them is free. -/
def freeNumber (taken : NameSet) (number : Nat) : Nat :=
  ((List.range' number (taken.size + 1)).find? fun n => !taken.contains (numberedId n)).getD number

/-- The ids of the declarations from the given place on, where each id given is taken at once. -/
def idsFrom (place : Nat) (taken : NameSet) : List LocatedDeclaration → List String
  | [] => []
  | d :: rest =>
    match d.declaration.explicitId? with
    | some id => id :: idsFrom (place + 1) taken rest
    | none =>
      let id := numberedId (freeNumber taken place)
      id :: idsFrom (place + 1) (taken.add id) rest

/-- The ids of all declarations of a source; a single one needs none. -/
def ids (ds : List LocatedDeclaration) : List (Option String) :=
  match ds with
  | [] => []
  | [d] => [d.declaration.explicitId?]
  | ds =>
    let taken := NameSet.ofNames (ds.filterMap (·.declaration.explicitId?))
    (idsFrom 0 taken ds).map some

end LocatedDeclaration

namespace ScanConfig

/-- The tests that the comments of a source declare. -/
def testsOfComments (c : ScanConfig) (file : Path) (relativePath : String)
    (comments : List Comment) (dir : DirectoryProperties) : List Description :=
  let ds := LocatedDeclaration.ofComments (c.rulesFor dir) comments
  (ds.zip (LocatedDeclaration.ids ds)).map fun (d, id) =>
    d.declaration.describe file relativePath d.line id dir

def testsOfSource (c : ScanConfig) (file : Path) (relativePath source : String)
    (style : CommentStyle) (dir : DirectoryProperties) : List Description :=
  c.testsOfComments file relativePath (style.extract source) dir

end ScanConfig

end TestSelection
