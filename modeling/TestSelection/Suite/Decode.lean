import TestSelection.Suite.Validity
import TestSelection.Toml.Document
import TestSelection.Toml.Record

/-!
From documents to configurations of a suite. A field that is missing has its usual value, one that
is not known is passed over, and one of the wrong type spoils the document.
-/

namespace TestSelection

open ConfigValue

namespace DirectoryTable

def ofValue? (format : ConfigFormat) (v : ConfigValue) : Option DirectoryTable := do
  let fields ← record? format ["modules", "enable_preview", "testng", "junit", "keys"] v
  return {
    modules := ← fieldOr fields "modules" (optional? texts?) none
    enablePreview := ← fieldOr fields "enable_preview" (optional? bool?) none
    testng := ← fieldOr fields "testng" bool? false
    junit := ← fieldOr fields "junit" bool? false
    keys := ← fieldOr fields "keys" (optional? texts?) none }

end DirectoryTable

namespace SuiteConfig

/-- The configuration that a value stands for, not checked. -/
def ofValue? (format : ConfigFormat) (v : ConfigValue) : Option SuiteConfig := do
  let fields ← record? format ["keys", "requires_properties", "groups", "modules", "enable_preview",
    "bug_validation", "extensions", "ignored_directories", "testng_dirs", "junit_dirs",
    "directories"] v
  return {
    keys := ← fieldOr fields "keys" (optional? texts?) none
    requiresProperties := ← fieldOr fields "requires_properties" texts? []
    groups := ← fieldOr fields "groups" texts? []
    modules := ← fieldOr fields "modules" texts? []
    enablePreview := ← fieldOr fields "enable_preview" bool? false
    bugValidation := ← fieldOr fields "bug_validation" bool? true
    extensions := ← fieldOr fields "extensions"
      (tableOf? fun v => (choice? format v).bind CommentStyle.ofLabel?) Table.empty
    ignoredDirectories := ← fieldOr fields "ignored_directories" (optional? texts?) none
    testngDirs := ← fieldOr fields "testng_dirs" texts? []
    junitDirs := ← fieldOr fields "junit_dirs" texts? []
    directories := ← fieldOr fields "directories" (tableOf? (DirectoryTable.ofValue? format))
      Table.empty }

def checked (c : SuiteConfig) : Except ConfigError SuiteConfig := do
  c.check.mapError .invalid
  return c

def ofToml (text : String) : Except ConfigError SuiteConfig :=
  match (Toml.parse? text).bind (ofValue? .toml) with
  | some c => c.checked
  | none => .error .malformed

def load (tree : FileTree) (p : Path) : Except ConfigError SuiteConfig := do
  ofToml (← ConfigError.readDocument tree p)

end SuiteConfig

end TestSelection
