import TestSelection.Suite.Config

/-!
What holds for the tests of a directory. It is handed down from the suite through the directories on
the way: modules and preview are replaced where a table sets them, keys can only become fewer, and
the first directory that selects a test runner does so for everything below it.
-/

namespace TestSelection

/-- What holds for the tests of a directory. -/
structure DirectoryProperties where
  /-- The directory below the suite root. -/
  dir : String
  modules : List String
  enablePreview : Bool
  /-- The directory that selects the one runner for everything below it. -/
  testngRoot : Option String
  /-- The directory that selects the other runner. -/
  junitRoot : Option String
  keys : Option NameSet
deriving DecidableEq

namespace DirectoryProperties

def hasRunner (d : DirectoryProperties) : Bool := d.testngRoot.isSome || d.junitRoot.isSome

/-- Selects a runner for a directory unless there is one. -/
def select (d : DirectoryProperties) (testng junit : Bool) : DirectoryProperties :=
  if d.hasRunner then d
  else if testng then { d with testngRoot := some d.dir }
  else if junit then { d with junitRoot := some d.dir }
  else d

def selectByLists (d : DirectoryProperties) (suite : SuiteConfig) : DirectoryProperties :=
  d.select (suite.testngDirs.any (SuiteConfig.normalizeDir · == d.dir))
    (suite.junitDirs.any (SuiteConfig.normalizeDir · == d.dir))

/-- What a table changes. -/
def apply (d : DirectoryProperties) (table : DirectoryTable) : DirectoryProperties :=
  let d := { d with
    modules := table.modules.getD d.modules
    enablePreview := table.enablePreview.getD d.enablePreview }
  let d := d.select table.testng table.junit
  match d.keys, table.keys with
  | some inherited, some keys =>
    let allowed := NameSet.ofNames (keys.map SuiteConfig.normalizeKey)
    { d with keys := some (NameSet.ofNames (inherited.names.filter allowed.contains)) }
  | _, _ => d

def root (suite : SuiteConfig) : DirectoryProperties :=
  selectByLists ⟨"", suite.modules, suite.enablePreview, none, none, suite.validKeys⟩ suite

/-- What holds for a directory whose parent has the given properties. -/
def child (d : DirectoryProperties) (suite : SuiteConfig) (dir : String) : DirectoryProperties :=
  let next := selectByLists { d with dir := SuiteConfig.normalizeDir dir } suite
  match suite.tableFor? next.dir with
  | some table => next.apply table
  | none => next

end DirectoryProperties

namespace SuiteConfig

/-- The directories on the way to one, each as a path below the suite root, itself the last. -/
def dirsOnTheWay (components : List (List Char)) : List String :=
  (List.range components.length).map fun n =>
    String.ofList (Path.joinPieces (components.take (n + 1)))

/-- What holds for the tests of a directory below the suite root. -/
def propertiesFor (c : SuiteConfig) (dir : String) : DirectoryProperties :=
  (dirsOnTheWay (dirComponents dir)).foldl (fun d dir => d.child c dir) (DirectoryProperties.root c)

end SuiteConfig

end TestSelection
