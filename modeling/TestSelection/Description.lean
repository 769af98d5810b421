import TestSelection.Action
import TestSelection.ModuleSpec
import TestSelection.Path
import TestSelection.Table

/-!
Descriptions: what is known of one declared test. A test is named by its URL, which is the path of
its file below the suite root, and behind a number sign its id if it has one.
-/

namespace TestSelection

/-- A declared test. -/
structure Description where
  file : Path
  /-- The path below the suite root. -/
  relativePath : String
  /-- The line of the declaring comment, counted from one. -/
  line : Nat
  id : Option String
  url : String
  title : String
  /-- The name of the file. -/
  source : String
  run : List Action
  bugs : List String
  keywords : NameSet
  libraries : List String
  modules : List ModuleSpec
  /-- What has to hold of a target for the test to be selected. -/
  requires : Option String
  enablePreview : Bool
  /-- The largest time limit of an action in seconds; zero stands for none. -/
  maxTimeout : Nat
  summary : Option String
  author : Option String
  comment : Option String
  /-- The first thing that is wrong with the declaration. -/
  error : Option String
deriving DecidableEq

namespace Description

/-- The name of a test. -/
def urlOf (relativePath : String) (id : Option String) : String :=
  match id with
  | some id => relativePath ++ "#" ++ id
  | none => relativePath

/-- A test of which only the place is known. -/
def new (file : Path) (relativePath : String) (line : Nat) (id : Option String) : Description where
  file := file
  relativePath := relativePath
  line := line
  id := id
  url := urlOf relativePath id
  title := ""
  source := file.fileName?.getD ""
  run := []
  bugs := []
  keywords := Table.empty
  libraries := []
  modules := []
  requires := none
  enablePreview := false
  maxTimeout := 0
  summary := none
  author := none
  comment := none
  error := none

def hasError (d : Description) : Bool := d.error.isSome

def hasKeyword (d : Description) (keyword : String) : Bool := d.keywords.contains keyword

/-- Items with a separator between them; no items are no text. -/
def joined? (separator : String) (items : List String) : Option String :=
  if items.isEmpty then none else some (separator.intercalate items)

def flagText (b : Bool) : String := if b then "true" else "false"

/-- The flat view of a test: a text for each name, where lists are written with blanks between their
items, and the actions one a line. -/
def parameter? (d : Description) (name : String) : Option String :=
  match name with
  | "title" => some d.title
  | "source" => some d.source
  | "run" => joined? "\n" (d.run.map Action.render)
  | "bug" => joined? " " d.bugs
  | "keywords" => joined? " " d.keywords.names
  | "library" => joined? " " d.libraries
  | "modules" => joined? " " (d.modules.map ModuleSpec.render)
  | "requires" => d.requires
  | "enablePreview" => some (flagText d.enablePreview)
  | "maxTimeout" => some (toString d.maxTimeout)
  | "summary" => d.summary
  | "author" => d.author
  | "comment" => d.comment
  | "error" => d.error
  | "id" => d.id
  | _ => none

end Description

end TestSelection
