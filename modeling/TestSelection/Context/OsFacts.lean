import TestSelection.Text

/-!
What is known of an operating system, and the short names for it.
-/

namespace TestSelection

def Text.digitRuns (s : String) : List (List Char) :=
  (Chars.splitBy (!·.isDigit) s.toList).filter (!·.isEmpty)

/-- An operating system as it describes itself. -/
structure OsFacts where
  name : String
  arch : String
  version : String
  processors : Option Nat
  maxMemory : Option Nat
  maxSwap : Option Nat
deriving DecidableEq

namespace OsFacts

/-- The beginnings of the names of the systems of a family. -/
def families : List (String × String) :=
  [("windows", "windows"), ("linux", "linux"), ("mac", "mac"), ("darwin", "mac"), ("aix", "aix"),
    ("sunos", "solaris"), ("solaris", "solaris")]

/-- The family of a system, which is its own name in small letters if no other is known. -/
def family (os : OsFacts) : String :=
  let name := Text.lower os.name
  match families.find? fun (beginning, _) => Text.startsWith beginning name with
  | some (_, family) => family
  | none => name

/-- The short name of an architecture, which is its own name in small letters if no other is
known. -/
def shortArch (os : OsFacts) : String :=
  let arch := Text.lower os.arch
  if ["amd64", "x86_64", "x64"].contains arch then "x64"
  else if ["i386", "i486", "i586", "i686", "x86"].contains arch then "x86"
  else if ["arm64", "aarch64"].contains arch then "aarch64"
  else arch

/-- The first two numbers of the version; a missing one is zero. -/
def shortVersion (os : OsFacts) : String :=
  let part := fun i => ((Text.digitRuns os.version)[i]?.map String.ofList).getD "0"
  part 0 ++ "." ++ part 1

end OsFacts

/-- The largest number of a release. -/
def maxRelease : Nat := 4294967295

/-- The number of a release, if it is not too large. -/
def releaseNumber? (digits : List Char) : Option Nat :=
  let n := Chars.natOfDigits digits
  if n ≤ maxRelease then some n else none

/-- The number of the feature release: the first number of a version, or the second if the first
is one. -/
def featureRelease? (version : String) : Option Nat :=
  match Text.digitRuns version with
  | [] => none
  | first :: rest =>
    match releaseNumber? first with
    | some 1 => rest.head?.bind releaseNumber?
    | other => other

end TestSelection
