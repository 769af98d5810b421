import TestSelection.Comment.Registry
import TestSelection.Expr.Names

/-!
The configuration of a suite: what its tests may refer to, which files define its groups, and what
holds for the tests of its directories unless they say otherwise.
-/

namespace TestSelection

/-- What is set for one directory. -/
structure DirectoryTable where
  modules : Option (List String)
  enablePreview : Option Bool
  testng : Bool
  junit : Bool
  keys : Option (List String)
deriving DecidableEq

def DirectoryTable.empty : DirectoryTable := ⟨none, none, false, false, none⟩

/-- The configuration of a suite. -/
structure SuiteConfig where
  /-- The keys that tests may carry; without a list no test may carry any. -/
  keys : Option (List String)
  /-- The names beyond the known ones that requirements may refer to. -/
  requiresProperties : List String
  /-- The files that define groups; one in brackets may be missing. -/
  groups : List String
  /-- The modules of a test that names none. -/
  modules : List String
  enablePreview : Bool
  /-- Whether bug ids are checked. -/
  bugValidation : Bool
  extensions : Table CommentStyle
  /-- The names of directories that are not looked into. -/
  ignoredDirectories : Option (List String)
  testngDirs : List String
  junitDirs : List String
  directories : Table DirectoryTable
deriving DecidableEq

structure GroupFile where
  path : Path
  /-- Whether the file may be missing. -/
  optional : Bool
deriving DecidableEq

namespace SuiteConfig

def default : SuiteConfig where
  keys := none
  requiresProperties := []
  groups := []
  modules := []
  enablePreview := false
  bugValidation := true
  extensions := Table.empty
  ignoredDirectories := none
  testngDirs := []
  junitDirs := []
  directories := Table.empty

instance : Inhabited SuiteConfig := ⟨default⟩

/-- The directories that are not looked into if none are configured. -/
def defaultIgnored : List String := ["SCCS", "RCS", "CVS", ".git", ".hg", ".svn"]

/-- A key in its usual form, with underscores for hyphens. -/
def normalizeKey (key : String) : String := Text.swap '-' '_' (Text.trim key)

/-- The components of a directory in its usual form, with slashes for backslashes. -/
def dirComponents (dir : String) : List (List Char) :=
  (Chars.splitAt '/' (Text.swap '\\' '/' (Text.trim dir)).toList).filter
    fun piece => !(piece == [] || piece == ['.'])

/-- A directory in its usual form: components with single slashes between them. -/
def normalizeDir (dir : String) : String := String.ofList (Path.joinPieces (dirComponents dir))

/-- A path of a group file, which may stand in brackets, and whether it does; none if a bracket is
missing. -/
def splitOptional? (entry : String) : Option (String × Bool) :=
  let s := Chars.trim entry.toList
  match s, s.getLast? with
  | '[' :: rest, some ']' => (Chars.before? [']'] rest).map fun path => (String.ofList path, true)
  | '[' :: _, _ => none
  | _, some ']' => none
  | s, _ => some (String.ofList s, false)

def validKeys (c : SuiteConfig) : Option NameSet :=
  c.keys.map fun keys => NameSet.ofNames (keys.map normalizeKey)

def groupFiles (c : SuiteConfig) : List GroupFile :=
  (c.groups.filterMap splitOptional?).map fun (path, optional) => ⟨⟨Text.trim path⟩, optional⟩

/-- The names of directories that are not looked into. -/
def ignoredNames (c : SuiteConfig) : NameSet :=
  match c.ignoredDirectories with
  | some names => NameSet.ofNames (names.map Text.trim)
  | none => NameSet.ofNames defaultIgnored

def knownNames (c : SuiteConfig) : KnownNames := KnownNames.withNames c.requiresProperties

/-- The styles of comments: the usual ones, and over them the configured ones. -/
def commentRegistry (c : SuiteConfig) : CommentRegistry :=
  CommentRegistry.defaults.registerAll c.extensions.entries

/-- What is set for a directory: the first table whose name has the same usual form. -/
def tableFor? (c : SuiteConfig) (dir : String) : Option DirectoryTable :=
  (c.directories.entries.find? fun (key, _) => normalizeDir key == normalizeDir dir).map (·.2)

end SuiteConfig

end TestSelection
