import TestSelection.PriorStatus
import TestSelection.Suite.Decode

/-!
The configuration of one run: which tests to select, and for which target.
-/

namespace TestSelection

/-- The platform that tests are selected for. -/
structure Platform where
  os : String
  arch : String
deriving DecidableEq, Inhabited

namespace Platform

def anyOs : String := "generic"

def anyArch : String := "all"

/-- Whether a qualifier, which is a system or a system and an architecture, covers a platform. -/
def isCoveredBy (p : Platform) (qualifier : String) : Bool :=
  let qualifier := Text.trim qualifier
  if qualifier = "generic-all" then true
  else
    match Text.cut '-' qualifier with
    | none => qualifier == p.os
    | some (os, arch) => (os == anyOs || os == p.os) && (arch == anyArch || arch == p.arch)

def ofValue? (format : ConfigFormat) (v : ConfigValue) : Option Platform := do
  let fields ← ConfigValue.record? format ["os", "arch"] v
  return { os := ← ConfigValue.fieldOf fields "os" ConfigValue.text?
           arch := ← ConfigValue.fieldOf fields "arch" ConfigValue.text? }

/-- A label has no blanks, hyphens or commas. -/
def isLabel (label : String) : Bool :=
  !label.isEmpty && label.toList.all fun c => !(Chars.isBlank c || c == '-' || c == ',')

end Platform

/-- The configuration of one run. -/
structure RunConfig where
  /-- The largest time limit in seconds that a selected test may have. -/
  timeLimit : Option Nat
  /-- What has to hold of the keywords of a selected test. -/
  keywords : Option String
  excludeLists : List Path
  matchLists : List Path
  /-- The outcomes of earlier runs that a selected test may have; none stands for all. -/
  priorStatus : List PriorStatus
  vmOptions : List String
  threadFactory : Option String
  /-- The platform; without one it is the platform of the machine that the run is on. -/
  platform : Option Platform
deriving DecidableEq

namespace RunConfig

def default : RunConfig := ⟨none, none, [], [], [], [], none, none⟩

instance : Inhabited RunConfig := ⟨default⟩

def statusSet (statuses : List PriorStatus) : List PriorStatus :=
  PriorStatus.all.filter statuses.contains

def paths? (v : ConfigValue) : Option (List Path) := v.texts?.map fun texts => texts.map Path.mk

def statuses? (format : ConfigFormat) (v : ConfigValue) : Option (List PriorStatus) :=
  (v.listOf? fun v => (v.choice? format).bind PriorStatus.ofLabel?).map statusSet

open ConfigValue in
/-- The configuration that a value stands for, not checked. -/
def ofValue? (format : ConfigFormat) (v : ConfigValue) : Option RunConfig := do
  let fields ← record? format ["timeout_limit_secs", "keywords", "exclude_lists", "match_lists",
    "prior_status", "vm_options", "test_thread_factory", "platform"] v
  return {
    timeLimit := ← fieldOr fields "timeout_limit_secs" (optional? count?) none
    keywords := ← fieldOr fields "keywords" (optional? text?) none
    excludeLists := ← fieldOr fields "exclude_lists" paths? []
    matchLists := ← fieldOr fields "match_lists" paths? []
    priorStatus := ← fieldOr fields "prior_status" (statuses? format) []
    vmOptions := ← fieldOr fields "vm_options" texts? []
    threadFactory := ← fieldOr fields "test_thread_factory" (optional? text?) none
    platform := ← fieldOr fields "platform" (fun v => (Platform.ofValue? format v).map some) none }

/-- Checks a configuration; the first problem counts. -/
def check (c : RunConfig) : Except ConfigProblem Unit := do
  if c.timeLimit = some 0 then throw .zeroTimeLimit
  if let some keywords := c.keywords then
    if let .error error := Expr.parse keywords then throw (.badKeywords error)
  checkAll c.excludeLists fun index p => checkPath (itemField "exclude_lists" index) p.text
  checkAll c.matchLists fun index p => checkPath (itemField "match_lists" index) p.text
  checkAll c.vmOptions fun index option =>
    if (Text.trim option).isEmpty then .error (.emptyOption index) else .ok ()
  if let some platform := c.platform then
    if !Platform.isLabel platform.os then throw (.notLabel "platform.os")
    if !Platform.isLabel platform.arch then throw (.notLabel "platform.arch")

def checked (c : RunConfig) : Except ConfigError RunConfig := do
  c.check.mapError .invalid
  return c

def ofToml (text : String) : Except ConfigError RunConfig :=
  match (Toml.parse? text).bind (ofValue? .toml) with
  | some c => c.checked
  | none => .error .malformed

/-- The configuration of the document that a path leads to. -/
def load (tree : FileTree) (p : Path) : Except ConfigError RunConfig := do
  ofToml (← ConfigError.readDocument tree p)

end RunConfig

end TestSelection
