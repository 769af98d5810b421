import TestSelection.Description
import TestSelection.Toml.Record

/-!
Descriptions as they are stored in JSON. A field that is missing or of the wrong type spoils the
whole; only optional fields may be missing, and they may not if the fields stand in a list.
-/

namespace TestSelection

open ConfigValue

def Action.ofValue? (v : ConfigValue) : Option Action := do
  let fields ← fullRecord? .json ["name", "options", "args", "user_specified"] v
  return {
    name := ← fieldOf fields "name" text?
    options := ← fieldOf fields "options" texts?
    args := ← fieldOf fields "args" text?
    byAuthor := ← fieldOf fields "user_specified" bool? }

def ModuleSpec.ofValue? (v : ConfigValue) : Option ModuleSpec := do
  let fields ← fullRecord? .json ["module", "package", "modifiers"] v
  return {
    module := ← fieldOf fields "module" text?
    package := ← fieldOr fields "package" (optional? text?) none
    access := ← fieldOf fields "modifiers"
      (listOf? fun v => (choice? .json v).bind ModuleAccess.ofLabel?) }

def Description.ofValue? (v : ConfigValue) : Option Description := do
  let fields ← fullRecord? .json ["file", "relativePath", "line", "id", "url", "title", "source",
    "run", "bugs", "keywords", "libraries", "modules", "requires", "enablePreview", "maxTimeout",
    "summary", "author", "comment", "error"] v
  return {
    file := ⟨← fieldOf fields "file" text?⟩
    relativePath := ← fieldOf fields "relativePath" text?
    line := ← fieldOf fields "line" count?
    id := ← fieldOr fields "id" (optional? text?) none
    url := ← fieldOf fields "url" text?
    title := ← fieldOf fields "title" text?
    source := ← fieldOf fields "source" text?
    run := ← fieldOf fields "run" (listOf? Action.ofValue?)
    bugs := ← fieldOf fields "bugs" texts?
    keywords := NameSet.ofNames (← fieldOf fields "keywords" texts?)
    libraries := ← fieldOf fields "libraries" texts?
    modules := ← fieldOf fields "modules" (listOf? ModuleSpec.ofValue?)
    requires := ← fieldOr fields "requires" (optional? text?) none
    enablePreview := ← fieldOf fields "enablePreview" bool?
    maxTimeout := ← fieldOf fields "maxTimeout" count?
    summary := ← fieldOr fields "summary" (optional? text?) none
    author := ← fieldOr fields "author" (optional? text?) none
    comment := ← fieldOr fields "comment" (optional? text?) none
    error := ← fieldOr fields "error" (optional? text?) none }

end TestSelection
