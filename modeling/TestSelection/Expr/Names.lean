import TestSelection.Context.Basic
import TestSelection.Expr.Parser

/-!
The names that an expression may refer to, before any values are there: single names, and families
of names with the same beginning.
-/

namespace TestSelection

/-- Single names, and the beginnings of families of names. -/
structure KnownNames where
  names : NameSet
  families : NameSet
deriving DecidableEq

namespace KnownNames

/-- The names that every context has. -/
def builtinNames : List String :=
  ["null", "jdk.version", "jdk.version.major", "os.name", "os.arch", "os.simpleArch", "os.version",
    "os.simpleVersion", "os.family", "os.processors", "os.maxMemory", "os.maxSwap",
    "test.thread.factory", "vm.gc", "vm.compMode"]

/-- The beginning of the names of virtual machine options. -/
def optionFamily : String := "vm.opt."

/-- The names that are known everywhere. -/
def builtin : KnownNames :=
  ⟨NameSet.ofNames builtinNames, NameSet.ofNames [optionFamily]⟩

instance : Inhabited KnownNames := ⟨builtin⟩

def insert (k : KnownNames) (name : String) : KnownNames := { k with names := k.names.add name }

/-- Adds all names that start with the given text and are longer. -/
def insertFamily (k : KnownNames) (beginning : String) : KnownNames :=
  { k with families := k.families.add beginning }

/-- The names known everywhere and those of a list. -/
def withNames (names : List String) : KnownNames := names.foldl insert builtin

/-- The names known everywhere and those that have an entry. -/
def ofContext (c : Context) : KnownNames := withNames c.facts.names

/-- Whether a name is one of a family: it goes on after the family's beginning. -/
def inFamily (beginning name : String) : Bool :=
  match Text.after? beginning name with
  | some rest => !rest.isEmpty
  | none => false

/-- Whether a name may be referred to. -/
def knows (k : KnownNames) (name : String) : Bool :=
  k.names.contains name || k.families.names.any (inFamily · name)

end KnownNames

namespace Expr

/-- Refuses the first name, in the order of names, that is not known. -/
def checkNames (knows : String → Bool) (e : Expr) : Except SyntaxError Unit :=
  match e.names.names.find? (!knows ·) with
  | some unknown => .error (.unknownName unknown)
  | none => .ok ()

end Expr

end TestSelection
