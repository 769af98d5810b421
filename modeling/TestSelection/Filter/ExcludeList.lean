import TestSelection.Description
import TestSelection.FileTree
import TestSelection.Run.Config

/-!
Exclude lists and match lists. A line of an exclude list names a test or a file, bugs and platforms,
and may go on with a synopsis; a line of a match list names a test or a file. Blank lines and those
that start with a number sign say nothing.
-/

namespace TestSelection

/-- Why a list or the keywords of a run cannot be used. -/
inductive ListError
  | unreadable (path : Path) (error : FileError)
  /-- A line with fewer than three fields. -/
  | badLine (path : Path) (line : Nat)
  | badKeywords (error : SyntaxError)
deriving DecidableEq

def ListError.message : ListError → String
  | unreadable path error => s!"cannot read {path.text}: {error.message}"
  | badLine path line =>
    s!"{path.text}:{line}: " ++ "expected `<test-url> <bug-ids> <platforms>`"
  | badKeywords error => s!"invalid keyword expression: {error.message}"

/-- The lines of a list that say something, with their numbers counted from one. -/
def listLines (text : String) : List (Nat × List Char) :=
  ((Chars.lines text.toList).zipIdx 1).filterMap fun (line, number) =>
    match Chars.trim line with
    | [] => none
    | '#' :: _ => none
    | line => some (number, line)

/-- The items of a field, with commas between them. -/
def commaItems (field : List Char) : List String :=
  (((Chars.splitAt ',' field).map Chars.trim).filter (!·.isEmpty)).map String.ofList

/-- A line of an exclude list. -/
structure ExcludeEntry where
  url : String
  bugs : List String
  platforms : List String
  synopsis : String
deriving DecidableEq

namespace ExcludeEntry

/-- Whether the entry names a test: by its full name if it has a number sign, else by its file. -/
def covers (e : ExcludeEntry) (test : Description) : Bool :=
  if Text.has '#' e.url then e.url == test.url else e.url == test.relativePath

/-- Whether the entry holds on a platform. -/
def holdsOn (e : ExcludeEntry) (platform : Platform) : Bool := e.platforms.any platform.isCoveredBy

/-- The file that an entry names, or that its test is in. -/
def file (e : ExcludeEntry) : String := String.ofList (e.url.toList.takeWhile (· != '#'))

/-- Reads a line. -/
def ofLine? (line : List Char) : Option ExcludeEntry :=
  match Chars.words line with
  | url :: bugs :: platforms :: synopsis =>
    some ⟨String.ofList url, commaItems bugs, commaItems platforms,
      " ".intercalate (synopsis.map String.ofList)⟩
  | _ => none

end ExcludeEntry

/-- Exclude entries by the file that they name, those of one file in order. -/
structure ExcludeList where
  byFile : Table (List ExcludeEntry)
deriving DecidableEq

namespace ExcludeList

def empty : ExcludeList := ⟨Table.empty⟩

/-- Adds an entry behind the others of its file. -/
def insert (l : ExcludeList) (e : ExcludeEntry) : ExcludeList :=
  ⟨l.byFile.insert e.file ((l.byFile.get? e.file).getD [] ++ [e])⟩

/-- All entries, file by file. -/
def toList (l : ExcludeList) : List ExcludeEntry := l.byFile.entries.flatMap (·.2)

def merge (l other : ExcludeList) : ExcludeList := other.toList.foldl insert l

/-- The entries of a text, line by line; `path` says where the text is from. -/
def entriesOf (path : Path) (text : String) : Except ListError (List ExcludeEntry) :=
  (listLines text).mapM fun (number, line) =>
    match ExcludeEntry.ofLine? line with
    | some e => .ok e
    | none => .error (.badLine path number)

/-- The list that a text holds. -/
def parse (path : Path) (text : String) : Except ListError ExcludeList := do
  return (← entriesOf path text).foldl insert empty

/-- The first entry that excludes a test on a platform. -/
def excludes? (l : ExcludeList) (test : Description) (platform : Platform) : Option ExcludeEntry :=
  ((l.byFile.get? test.relativePath).getD []).find? fun e => e.covers test && e.holdsOn platform

def size (l : ExcludeList) : Nat := l.toList.length

def isEmpty (l : ExcludeList) : Bool := l.byFile.entries.isEmpty

/-- Merges the lists of several texts, from left to right. -/
def ofTexts (texts : List (Path × String)) : Except ListError ExcludeList :=
  texts.foldlM (fun l (path, text) => do return l.merge (← parse path text)) empty

end ExcludeList

/-- The names of tests and files to select. -/
structure MatchList where
  urls : NameSet
deriving DecidableEq

namespace MatchList

def empty : MatchList := ⟨Table.empty⟩

/-- The first words of the lines of a text. -/
def parse (text : String) : MatchList :=
  ⟨NameSet.ofNames ((listLines text).filterMap fun (_, line) =>
    (Chars.words line).head?.map String.ofList)⟩

def merge (l other : MatchList) : MatchList := ⟨l.urls.union other.urls⟩

def contains (l : MatchList) (test : Description) : Bool :=
  l.urls.contains test.url || l.urls.contains test.relativePath

/-- Merges the lists of several texts. -/
def ofTexts (texts : List String) : MatchList :=
  texts.foldl (fun l text => l.merge (parse text)) empty

end MatchList

/-- The texts of files, up to the first one that cannot be read. -/
def readLists (tree : FileTree) (paths : List Path) : Except ListError (List (Path × String)) :=
  paths.mapM fun path =>
    match tree.readText path with
    | .ok text => .ok (path, text)
    | .error error => .error (.unreadable path error)

end TestSelection
