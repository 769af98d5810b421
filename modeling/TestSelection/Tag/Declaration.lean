import TestSelection.Action
import TestSelection.Expr.Names
import TestSelection.ModuleSpec
import TestSelection.Suite.Config
import TestSelection.Tag.Entry

/-!
Declarations: the values of the tags of one test, each tag checked on its own. What is wrong with a
tag is recorded, the first error only, and the other tags count all the same.
-/

namespace TestSelection

/-- What is wrong with a tag. -/
inductive TagError
  | unknownTag (name : String)
  | emptyValue (tag : String)
  | duplicateTag (tag : String)
  | invalidBug (token : String)
  | invalidKey (token : String)
  | invalidModule (token : String) (problem : ModuleProblem)
  | libraryAfterAction
  | invalidRequires (error : SyntaxError)
  | invalidEnablePreview (value : String)
  | invalidAction (text : String)
  | invalidTimeout (value : String)
  | noDefaultAction (source : String)
deriving DecidableEq

def TagError.message : TagError → String
  | unknownTag name => s!"invalid tag: @{name}"
  | emptyValue tag => s!"no value given for @{tag}"
  | duplicateTag tag => s!"@{tag} may only be given once"
  | invalidBug token => s!"invalid bug id: {token}"
  | invalidKey token => s!"invalid key: {token}"
  | invalidModule token problem =>
    s!"invalid module specification `{token}`: {problem.message}"
  | libraryAfterAction => "@library must appear before the first action tag"
  | invalidRequires error => s!"invalid @requires: {error.message}"
  | invalidEnablePreview value => s!"invalid @enablePreview value: {value}"
  | invalidAction text => s!"invalid action: {text}"
  | invalidTimeout value => s!"invalid timeout: {value}"
  | noDefaultAction source => s!"no default action for {source}"

/-- What the values of tags are checked against. -/
structure TagRules where
  knownNames : KnownNames
  /-- Whether bug ids are checked. -/
  bugValidation : Bool
  /-- The keys that a test may carry; without them the tag for keys is unknown. -/
  keys : Option NameSet

def TagRules.default : TagRules := ⟨KnownNames.builtin, true, none⟩

/-- The values of the tags of one test. -/
structure Declaration where
  testValue : String
  actions : List Action
  bugs : List String
  keys : List String
  libraries : List String
  /-- Absent if no tag names modules. -/
  modules : Option (List ModuleSpec)
  requires : List String
  enablePreview : Option Bool
  summary : List String
  author : List String
  comment : List String
  error : Option TagError
  /-- Whether the tag for keys has been there. -/
  keysGiven : Bool
deriving DecidableEq

/-- Seven digits, eight that start with fourteen, or a project in capitals and digits with seven
digits behind a hyphen. -/
def isBugId (token : String) : Bool :=
  let s := token.toList
  let isUpper := fun c : Char => 'A' ≤ c && c ≤ 'Z'
  if s.length = 7 && s.all Char.isDigit then true
  else if s.length = 8 && s.take 2 == ['1', '4'] && s.all Char.isDigit then true
  else
    match Chars.cut '-' s with
    | some (project, number) =>
      (project.head?.map isUpper).getD false && project.all (fun c => isUpper c || c.isDigit)
        && number.length == 7 && number.all Char.isDigit
    | none => false

/-- A module entry, or what is wrong with it as a tag's value. -/
def moduleOfToken (token : String) : Except TagError ModuleSpec :=
  match ModuleSpec.parse token with
  | .ok m => .ok m
  | .error problem => .error (.invalidModule token problem)

namespace Declaration

def empty : Declaration where
  testValue := ""
  actions := []
  bugs := []
  keys := []
  libraries := []
  modules := none
  requires := []
  enablePreview := none
  summary := []
  author := []
  comment := []
  error := none
  keysGiven := false

/-- The tags that add an action. -/
def actionTags : List String := ["run", "clean", "compile", "build", "ignore"]

/-- Those of them that need no value. -/
def valuelessTags : List String := ["ignore"]

def record (d : Declaration) (error : TagError) : Declaration :=
  { d with error := d.error.or (some error) }

/-- The id that the test's own tag gives. -/
def explicitId? (d : Declaration) : Option String :=
  ((Text.words d.testValue).findSome? (Text.after? "id=")).filter (!·.isEmpty)

/-- The action of a tag with a value, or why there is none. -/
def actionOf (e : TagEntry) : Except TagError Action :=
  let base := e.baseName
  let value := e.flat
  if value.isEmpty && !valuelessTags.contains base then .error (.emptyValue base)
  else if base = "run" then
    match Action.parse? value true with
    | some action => .ok action
    | none => .error (.invalidAction value)
  else .ok ⟨base, e.options, value, true⟩

/-- The time limit of an action that is no count. -/
def badTimeout? (a : Action) : Option String :=
  (a.optionValue? Action.timeoutOption).filter fun value => (Text.count? value).isNone

/-- Adds an action; one with a wrong time limit is added as well. -/
def applyAction (d : Declaration) (e : TagEntry) : Declaration :=
  match actionOf e with
  | .error error => d.record error
  | .ok action =>
    let d := match badTimeout? action with
      | some value => d.record (.invalidTimeout value)
      | none => d
    { d with actions := d.actions ++ [action] }

/-- The tokens of a list of bugs. -/
def bugTokens (value : String) : List String :=
  ((Chars.splitBy [' ', '\n', '\t', ','].contains value.toList).filter (!·.isEmpty)).map
    String.ofList

/-- Adds the bugs of a list; a token that is no bug id is left out. -/
def applyBug (d : Declaration) (rules : TagRules) (e : TagEntry) : Declaration :=
  let tokens := bugTokens e.value
  if tokens = [] then d.record (.emptyValue "bug")
  else
    tokens.foldl (fun d token =>
      if rules.bugValidation && !isBugId token then d.record (.invalidBug token)
      else { d with bugs := d.bugs ++ [token] }) d

/-- Adds the keys of a list, which may be given once; a key that is not valid is left out. -/
def applyKey (d : Declaration) (valid : NameSet) (e : TagEntry) : Declaration :=
  if d.keysGiven then d.record (.duplicateTag "key")
  else
    (Text.words e.value).foldl (fun d token =>
      let key := SuiteConfig.normalizeKey token
      if valid.contains key then { d with keys := d.keys ++ [key] }
      else d.record (.invalidKey token)) { d with keysGiven := true }

/-- Adds the modules of a list; one that is wrong discards the list. -/
def applyModules (d : Declaration) (e : TagEntry) : Declaration :=
  match (Text.words e.value).mapM moduleOfToken with
  | .ok modules => { d with modules := some (d.modules.getD [] ++ modules) }
  | .error error => d.record error

/-- Adds the libraries of a list, unless there are actions already. -/
def applyLibrary (d : Declaration) (e : TagEntry) : Declaration :=
  if !d.actions.isEmpty then d.record .libraryAfterAction
  else
    match Text.words e.value with
    | [] => d.record (.emptyValue "library")
    | libraries => { d with libraries := d.libraries ++ libraries }

/-- The text of a requirement that parses and refers to known names only. -/
def checkRequires (knownNames : KnownNames) (text : String) : Except SyntaxError Unit := do
  (← Expr.parse text).checkNames knownNames.knows

def applyRequires (d : Declaration) (rules : TagRules) (e : TagEntry) : Declaration :=
  match checkRequires rules.knownNames e.flat with
  | .ok () => { d with requires := d.requires ++ [e.flat] }
  | .error error => d.record (.invalidRequires error)

/-- Switches preview features; without a value they are switched on. -/
def applyEnablePreview (d : Declaration) (e : TagEntry) : Declaration :=
  match e.flat with
  | "" | "true" => { d with enablePreview := some true }
  | "false" => { d with enablePreview := some false }
  | other => d.record (.invalidEnablePreview other)

def addText (texts : List String) (e : TagEntry) : List String :=
  if e.flat.isEmpty then texts else texts ++ [e.flat]

def apply (rules : TagRules) (d : Declaration) (e : TagEntry) : Declaration :=
  let unknown := d.record (.unknownTag e.name)
  if actionTags.contains e.baseName then d.applyAction e
  else if e.hasOptions then unknown
  else
    match e.baseName with
    | "test" => { d with testValue := e.flat }
    | "bug" => d.applyBug rules e
    | "key" =>
      match rules.keys with
      | some valid => d.applyKey valid e
      | none => unknown
    | "modules" => d.applyModules e
    | "library" => d.applyLibrary e
    | "requires" => d.applyRequires rules e
    | "enablePreview" => d.applyEnablePreview e
    | "summary" => { d with summary := addText d.summary e }
    | "author" => { d with author := addText d.author e }
    | "comment" => { d with comment := addText d.comment e }
    | _ => unknown

def ofEntries (rules : TagRules) (entries : List TagEntry) : Declaration :=
  entries.foldl (apply rules) empty

end Declaration

end TestSelection
