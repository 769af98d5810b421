import TestSelection.Expr.SyntaxError
import TestSelection.FileTree

/-!
Why a configuration is refused. A problem with a value names the field that holds it.
-/

namespace TestSelection

/-- What is wrong with a value of a configuration. -/
inductive ConfigProblem
  | notKey (field : String) (index : Nat) (key : String)
  | notPropertyName (index : Nat) (name : String)
  | unbalancedBrackets (field : String)
  | emptyPath (field : String)
  | pathTooLong (field : String)
  | componentTooLong (field : String)
  | notModule (field : String) (index : Nat) (entry : String)
  | notExtension (extension : String)
  | notDirectoryName (index : Nat)
  | notRelative (field : String)
  /-- A directory that goes back to a parent. -/
  | climbs (field : String)
  /-- A directory listed for both runners. -/
  | listedTwice (index : Nat) (dir : String)
  /-- A table that selects both runners. -/
  | twoRunners (field : String)
  | zeroTimeLimit
  | badKeywords (error : SyntaxError)
  | emptyOption (index : Nat)
  | notLabel (field : String)
  | documentPathTooLong
  | documentComponentTooLong
  | documentTooLarge
  | documentNotText
deriving DecidableEq

def ConfigProblem.message : ConfigProblem → String
  | notKey field index key => s!"{field}[{index}] is not a valid key: {key}"
  | notPropertyName index name => s!"requires_properties[{index}] is not a property name: {name}"
  | unbalancedBrackets field => s!"{field} has unbalanced brackets"
  | emptyPath field => s!"{field} must be non-empty"
  | pathTooLong field => s!"{field} exceeds max length"
  | componentTooLong field => s!"{field} path component too long"
  | notModule field index entry => s!"{field}[{index}] is not a module entry: {entry}"
  | notExtension extension => s!"extensions key is not an extension: {extension}"
  | notDirectoryName index => s!"ignored_directories[{index}] must be a single directory name"
  | notRelative field => s!"{field} must be relative to the suite root"
  | climbs field => field ++ " must not contain `..`"
  | listedTwice index dir => s!"junit_dirs[{index}] is also a testng dir: {dir}"
  | twoRunners field => s!"{field} cannot set both testng and junit"
  | zeroTimeLimit => "timeout_limit_secs must be greater than zero"
  | badKeywords error => s!"keywords: {error.message}"
  | emptyOption index => s!"vm_options[{index}] must be non-empty"
  | notLabel field => s!"{field} must be a single label"
  | documentPathTooLong => "config path exceeds max length"
  | documentComponentTooLong => "config path component too long"
  | documentTooLarge => "config file exceeds size limit"
  | documentNotText => "config file must be utf-8"

/-- Why there is no configuration. -/
inductive ConfigError
  | unreadable (path : Path) (error : FileError)
  /-- The document is no TOML, or its values have the wrong types. -/
  | malformed
  | invalid (problem : ConfigProblem)
deriving DecidableEq

def ConfigError.message : ConfigError → String
  | unreadable path error => s!"config io error: {path.text}: {error.message}"
  | malformed => "config parse error"
  | invalid problem => s!"invalid config: {problem.message}"

/-- Limits for paths and documents. -/
def maxPathBytes : Nat := 4096

def maxComponentBytes : Nat := 255

def maxDocumentBytes : Nat := 1024 * 1024

namespace ConfigError

/-- Whether a part of a path is too long. -/
def hasLongPart (p : Path) : Bool :=
  p.parts.any fun part => maxComponentBytes < part.text.utf8ByteSize

/-- Refuses a path that is too long for a document. -/
def checkDocumentPath (p : Path) : Except ConfigProblem Unit :=
  if maxPathBytes < p.text.utf8ByteSize then .error .documentPathTooLong
  else if hasLongPart p then .error .documentComponentTooLong
  else .ok ()

def readDocument (tree : FileTree) (p : Path) : Except ConfigError String := do
  (checkDocumentPath p).mapError invalid
  match tree.content p with
  | .error error => throw (.unreadable p error)
  | .ok content =>
    if maxDocumentBytes < content.size then throw (.invalid .documentTooLarge)
    match content with
    | .text s => return s
    | .binary _ => throw (.invalid .documentNotText)

end ConfigError

/-- Calls a check for each item of a list with its index, up to the first problem. -/
def checkAll {α : Type} (items : List α) (check : Nat → α → Except ConfigProblem Unit) :
    Except ConfigProblem Unit :=
  items.zipIdx.forM fun (item, index) => check index item

end TestSelection
