import TestSelection.Text

/-!
Actions: the steps of a test, such as `main/othervm/timeout=60 Foo a b`. A step has a name, options
behind slashes, and arguments behind the first blank.
-/

namespace TestSelection

/-- One step of a test. -/
structure Action where
  name : String
  options : List String
  args : String
  /-- Whether the author of the test wrote the step. -/
  byAuthor : Bool
deriving DecidableEq

namespace Action

/-- The seconds that a timed action may take if it does not say. -/
def defaultTimeout : Nat := 120

/-- The actions that run under a time limit. -/
def timedNames : List String := ["main", "shell", "junit", "testng", "driver", "applet", "compile"]

/-- An action without options. -/
def plain (name args : String) (byAuthor : Bool) : Action := ⟨name, [], args, byAuthor⟩

/-- The parts of a text behind its slashes, empty ones left out. -/
def optionsOf (pieces : List (List Char)) : List String :=
  (pieces.filter (!·.isEmpty)).map String.ofList

/-- Reads an action; a text without a name is none. -/
def parse? (text : String) (byAuthor : Bool) : Option Action :=
  let s := Chars.trim text.toList
  let (head, args) := match Chars.cutBy Chars.isBlank s with
    | some (head, args) => (head, Chars.trim args)
    | none => (s, [])
  match Chars.splitAt '/' head with
  | [] | [] :: _ => none
  | name :: options =>
    some ⟨String.ofList name, optionsOf options, String.ofList args, byAuthor⟩

def render (a : Action) : String :=
  a.name ++ String.join (a.options.map ("/" ++ ·)) ++ (if a.args.isEmpty then "" else " " ++ a.args)

/-- The name of an option of the form `name=value`, and its value. -/
def splitOption (option : String) : Option (String × String) := Text.cut '=' option

/-- Whether an option is given, with or without a value. -/
def hasOption (a : Action) (name : String) : Bool :=
  a.options.any fun option =>
    option == name || (match splitOption option with
      | some (key, _) => key == name
      | none => false)

/-- The value of the first option of a name that has a value. -/
def optionValue? (a : Action) (name : String) : Option String :=
  a.options.findSome? fun option =>
    match splitOption option with
    | some (key, value) => if key = name then some value else none
    | none => none

def timeoutOption : String := "timeout"

/-- The time limit in seconds that an action gives itself. -/
def declaredTimeout? (a : Action) : Option Nat := (a.optionValue? timeoutOption).bind Text.count?

def isTimed (a : Action) : Bool := timedNames.contains a.name

/-- The time limit in seconds of a timed action. -/
def effectiveTimeout? (a : Action) : Option Nat :=
  if a.isTimed then some (a.declaredTimeout?.getD defaultTimeout) else none

end Action

end TestSelection
