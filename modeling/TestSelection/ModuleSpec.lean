import TestSelection.Text.Letter
import TestSelection.Text

/-!
Module entries: a module, or a package of one with the kinds of access that a test needs to it, such
as `java.base/jdk.internal.misc:open,+open`.
-/

namespace TestSelection

/-- A kind of access to a package. -/
inductive ModuleAccess
  | openAccess | privateAccess | plusOpen
deriving DecidableEq, Repr

namespace ModuleAccess

def all : List ModuleAccess := [openAccess, privateAccess, plusOpen]

def text : ModuleAccess → String
  | openAccess => "open"
  | privateAccess => "private"
  | plusOpen => "+open"

def label : ModuleAccess → String
  | openAccess => "open"
  | privateAccess => "private"
  | plusOpen => "plus_open"

def ofLabel? (name : String) : Option ModuleAccess := all.find? (·.label == name)

/-- The kind of access that is written in a given way. -/
def ofText? (s : String) : Option ModuleAccess := all.find? (·.text == s)

end ModuleAccess

/-- A module, or a package of a module with kinds of access. -/
structure ModuleSpec where
  module : String
  package : Option String
  access : List ModuleAccess
deriving DecidableEq

/-- What is wrong with a module entry. -/
inductive ModuleProblem
  | badModule | badPackage | badModifier
deriving DecidableEq, Repr

def ModuleProblem.message : ModuleProblem → String
  | badModule => "bad module name"
  | badPackage => "bad package name"
  | badModifier => "bad modifier"

namespace ModuleSpec

/-- What an identifier starts with. -/
def startsIdentifier (c : Char) : Bool := Chars.isAlphabetic c || c == '_' || c == '$'

/-- What an identifier goes on with. -/
def continuesIdentifier (c : Char) : Bool := Chars.isAlphanumeric c || c == '_' || c == '$'

/-- A letter, underscore or dollar sign, then letters, numbers and these. -/
def isIdentifier : List Char → Bool
  | [] => false
  | c :: s => startsIdentifier c && (c :: s).all continuesIdentifier

/-- Identifiers with points between them. -/
def isQualifiedName (s : List Char) : Bool := (Chars.splitAt '.' s).all isIdentifier

/-- The kinds of access behind a colon, with commas between them. -/
def readAccess (s : List Char) : Except ModuleProblem (List ModuleAccess) :=
  (Chars.splitAt ',' s).mapM fun piece =>
    match ModuleAccess.ofText? (String.ofList piece) with
    | some access => .ok access
    | none => .error .badModifier

def parse (token : String) : Except ModuleProblem ModuleSpec :=
  let s := token.toList
  let (module, rest) := match Chars.cut '/' s with
    | some (module, rest) => (module, some rest)
    | none => (s, none)
  if !isQualifiedName module then .error .badModule
  else
    match rest with
    | none => .ok ⟨String.ofList module, none, []⟩
    | some rest =>
      let (package, access) := match Chars.cut ':' rest with
        | some (package, access) => (package, some access)
        | none => (rest, none)
      if !isQualifiedName package then .error .badPackage
      else do
        let access ← match access with
          | some access => readAccess access
          | none => pure []
        return ⟨String.ofList module, some (String.ofList package), access⟩

/-- A module entry as it is written; access is written only to a package. -/
def render (m : ModuleSpec) : String :=
  match m.package with
  | none => m.module
  | some package =>
    m.module ++ "/" ++ package ++
      (if m.access.isEmpty then "" else ":" ++ ",".intercalate (m.access.map (·.text)))

end ModuleSpec

end TestSelection
