import TestSelection.Description
import TestSelection.Suite.Directory
import TestSelection.Tag.Declaration

/-!
From a declaration to a description: what a test does not say is filled in from its file and its
directory, and what follows from its actions is derived, once and after all tags have been applied.
-/

namespace TestSelection

namespace Declaration

/-- The actions whose names are keywords. -/
def keywordActions : List String := ["shell", "junit", "testng", "driver", "ignore"]

/-- The options that are keywords. -/
def keywordOptions : List String := ["othervm", "manual", "native"]

/-- The class that a file holds, named from a runner's root on. -/
def runnerClass (relativePath root : String) : String :=
  let within :=
    if root.isEmpty then relativePath
    else
      match Text.after? root relativePath with
      | some rest => Text.dropFront '/' rest
      | none => relativePath
  Text.swap '/' '.' ((Text.before? ".java" within).getD within)

/-- The action of a test that has none. -/
def defaultAction? (source relativePath : String) (dir : DirectoryProperties) : Option Action :=
  match Text.cutLast '.' source with
  | none => none
  | some (stem, extension) =>
    match extension with
    | "java" =>
      match dir.testngRoot, dir.junitRoot with
      | some root, _ => some (.plain "testng" (runnerClass relativePath root) false)
      | none, some root => some (.plain "junit" (runnerClass relativePath root) false)
      | none, none => some (.plain "main" stem false)
    | "sh" => some (.plain "shell" source false)
    | "html" => some (.plain "applet" source false)
    | _ => none

def actionKeywords (a : Action) : List String :=
  (if keywordActions.contains a.name then [a.name] else []) ++ keywordOptions.filter a.hasOption

/-- The keyword of a bug: its number, without a project. -/
def bugKeyword (bug : String) : String :=
  "bug" ++ (match Text.cutLast '-' bug with
    | some (_, number) => number
    | none => bug)

/-- The largest time limit; one of zero stands for no limit at all. -/
def maxTimeout (actions : List Action) : Nat :=
  let declared := actions.filterMap Action.declaredTimeout?
  if declared.contains 0 then 0 else declared.foldl max 0

/-- The blanks of ASCII that end a sentence. -/
def endsSentence (c : Char) : Bool :=
  c == ' ' || c == '\t' || c == '\n' || c == '\x0c' || c == '\r'

/-- The text up to the first point that ends a sentence. -/
def firstSentence : List Char → List Char
  | [] => []
  | ['.'] => ['.']
  | '.' :: c :: s => if endsSentence c then ['.'] else '.' :: firstSentence (c :: s)
  | c :: s => c :: firstSentence s

/-- Requirements that have to hold together, as one text. -/
def conjoin : List String → Option String
  | [] => none
  | [single] => some single
  | many => some (" & ".intercalate (many.map fun text => "(" ++ text ++ ")"))

/-- The description of a test that is declared at a place of a directory. -/
def describe (d : Declaration) (file : Path) (relativePath : String) (line : Nat)
    (id : Option String) (dir : DirectoryProperties) : Description :=
  let bare := Description.new file relativePath line id
  let d :=
    if !d.actions.isEmpty then d
    else
      match defaultAction? bare.source relativePath dir with
      | some action => { d with actions := [action] }
      | none => d.record (.noDefaultAction bare.source)
  let summary := Description.joined? " " d.summary
  { bare with
    title := match summary with
      | some text => String.ofList (firstSentence text.toList)
      | none => bare.source
    run := d.actions
    bugs := d.bugs
    keywords := NameSet.ofNames
      (d.actions.flatMap actionKeywords ++ d.bugs.map bugKeyword ++ d.keys)
    libraries := d.libraries
    modules := d.modules.getD
      (dir.modules.filterMap fun token => (ModuleSpec.parse token).toOption)
    requires := conjoin d.requires
    enablePreview := d.enablePreview.getD dir.enablePreview
    maxTimeout := maxTimeout d.actions
    summary := summary
    author := Description.joined? " " d.author
    comment := Description.joined? " " d.comment
    error := d.error.map TagError.message }

end Declaration

end TestSelection
