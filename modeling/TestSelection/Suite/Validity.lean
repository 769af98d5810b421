import TestSelection.Suite.Config
import TestSelection.Suite.ConfigError

/-!
Which configurations of a suite are valid. The fields are checked in a fixed order, and the first
problem counts.
-/

namespace TestSelection

def itemField (field : String) (index : Nat) : String := s!"{field}[{index}]"

/-- A path has to be there and must not be too long, blanks around it apart. -/
def checkPath (field value : String) : Except ConfigProblem Unit :=
  let trimmed := Text.trim value
  if trimmed.isEmpty then .error (.emptyPath field)
  else if maxPathBytes < trimmed.utf8ByteSize then .error (.pathTooLong field)
  else if ConfigError.hasLongPart ⟨trimmed⟩ then .error (.componentTooLong field)
  else .ok ()

/-- A directory below the suite root has to be a path that neither starts at the top nor goes back
to a parent. -/
def checkRelativeDir (field value : String) : Except ConfigProblem Unit := do
  checkPath field value
  match (⟨Text.trim value⟩ : Path).parts.find? fun part => part == .root || part == .up with
  | some .root => throw (.notRelative field)
  | some _ => throw (.climbs field)
  | none => return

/-- ASCII letters and digits, underscores and hyphens, one or more. -/
def isKey (key : String) : Bool :=
  !key.isEmpty && key.toList.all fun c => Chars.isWordChar c || c == '-'

def checkKeys (field : String) (keys : List String) : Except ConfigProblem Unit :=
  checkAll keys fun index key => if isKey key then .ok () else .error (.notKey field index key)

/-- ASCII letters, digits and underscores, one or more. -/
def isWord (s : List Char) : Bool := !s.isEmpty && s.all Chars.isWordChar

/-- Words with points between them, up to the first slash. -/
def isModuleEntry (entry : String) : Bool :=
  (Chars.splitAt '.' (entry.toList.takeWhile (· != '/'))).all isWord

def checkModules (field : String) (modules : List String) : Except ConfigProblem Unit :=
  checkAll modules fun index entry =>
    if isModuleEntry entry then .ok () else .error (.notModule field index entry)

/-- Words with points between them, the first of which does not start with a digit. -/
def isPropertyName (name : String) : Bool :=
  (match name.toList with
    | c :: _ => c.isAlpha || c == '_'
    | [] => false)
    && (Chars.splitAt '.' name.toList).all isWord

/-- Whether a text, points at its front apart, is a bare extension. -/
def isExtension (extension : String) : Bool :=
  let bare := Chars.dropFront '.' extension.toList
  !bare.isEmpty && bare.all fun c => !(c == '/' || c == '\\' || c == '.')

/-- Whether a text is the name of a single directory. -/
def isDirectoryName (name : String) : Bool :=
  !(Text.trim name).isEmpty && name.toList.all fun c => !(c == '/' || c == '\\')

namespace DirectoryTable

def check (field : String) (t : DirectoryTable) : Except ConfigProblem Unit := do
  if t.testng && t.junit then throw (.twoRunners field)
  if let some keys := t.keys then checkKeys (field ++ ".keys") keys
  if let some modules := t.modules then checkModules (field ++ ".modules") modules

end DirectoryTable

namespace SuiteConfig

/-- A file that defines groups has to be a path, with both brackets or none. -/
def checkGroup (index : Nat) (entry : String) : Except ConfigProblem Unit :=
  let field := itemField "groups" index
  match splitOptional? entry with
  | none => .error (.unbalancedBrackets field)
  | some (path, _) => checkPath field path

/-- Checks the fields that do not concern directories. -/
def checkSuite (c : SuiteConfig) : Except ConfigProblem Unit := do
  if let some keys := c.keys then checkKeys "keys" keys
  checkAll c.requiresProperties fun index name =>
    if isPropertyName name then .ok () else .error (.notPropertyName index name)
  checkAll c.groups checkGroup
  checkModules "modules" c.modules
  checkAll c.extensions.names fun _ extension =>
    if isExtension extension then .ok () else .error (.notExtension extension)
  if let some ignored := c.ignoredDirectories then
    checkAll ignored fun index name =>
      if isDirectoryName name then .ok () else .error (.notDirectoryName index)

/-- Checks the fields that concern directories. -/
def checkDirectories (c : SuiteConfig) : Except ConfigProblem Unit := do
  checkAll c.testngDirs fun index dir => checkRelativeDir (itemField "testng_dirs" index) dir
  checkAll c.junitDirs fun index dir => do
    checkRelativeDir (itemField "junit_dirs" index) dir
    if c.testngDirs.any (normalizeDir · == normalizeDir dir) then throw (.listedTwice index dir)
  checkAll c.directories.entries fun _ (dir, table) => do
    let field := "directories.\"" ++ dir ++ "\""
    checkRelativeDir field dir
    table.check field

def check (c : SuiteConfig) : Except ConfigProblem Unit := do
  c.checkSuite
  c.checkDirectories

end SuiteConfig

end TestSelection
