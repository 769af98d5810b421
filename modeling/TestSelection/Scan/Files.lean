import TestSelection.Diagnostic
import TestSelection.FileTree
import TestSelection.Scan.Source

/-!
Scans of files and directories. A file that cannot be scanned is reported and gives no tests, and so
is a folder that cannot be opened. Of tests with one URL the first counts, and the others are
reported and dropped.
-/

namespace TestSelection

/-- Why a file was not scanned. -/
inductive ScanError
  | unreadable (path : Path) (error : FileError)
  /-- The file has no style of comments. -/
  | unknownExtension (path : Path)
  | outsideRoot (path : Path)
deriving DecidableEq

namespace ScanError

def message : ScanError → String
  | unreadable path error => s!"cannot read {path.text}: {error.message}"
  | unknownExtension path => s!"no comment strategy for {path.text}"
  | outsideRoot path => s!"{path.text} is not under the suite root"

def path : ScanError → Path
  | unreadable p _ | unknownExtension p | outsideRoot p => p

/-- How the error is reported. -/
def diagnostic (e : ScanError) : Diagnostic :=
  let kind := match e with
    | unreadable .. => DiagnosticKind.io
    | unknownExtension _ | outsideRoot _ => .parse
  ⟨kind, some e.path, none, e.message⟩

end ScanError

/-- Tests found, and what was reported on the way. -/
structure ScanResult where
  tests : List Description
  reports : List Diagnostic
deriving DecidableEq

namespace ScanConfig

/-- The path of a file below the root, with single slashes. -/
def relativePath (c : ScanConfig) (file : Path) : Except ScanError String :=
  match file.partsWithin? c.root with
  | some parts => .ok ("/".intercalate (parts.map PathPart.text))
  | none => .error (.outsideRoot file)

/-- The directory part of a path below the root. -/
def directoryOf (relativePath : String) : String :=
  match Text.cutLast '/' relativePath with
  | some (dir, _) => dir
  | none => ""

def testsOfFile (c : ScanConfig) (tree : FileTree) (file : Path) :
    Except ScanError (List Description) := do
  let relative ← c.relativePath file
  match c.registry.styleOf? file with
  | none => throw (.unknownExtension file)
  | some style =>
    match tree.readText file with
    | .error error => throw (.unreadable file error)
    | .ok source =>
      let dir := c.suite.propertiesFor (directoryOf relative)
      return c.testsOfSource file relative source style dir

/-- How an error in a test's tags is reported. -/
def tagReport? (test : Description) : Option Diagnostic :=
  test.error.map fun error => ⟨.parse, some test.file, some test.url, error⟩

def scanFile (c : ScanConfig) (tree : FileTree) (file : Path) : ScanResult :=
  match c.testsOfFile tree file with
  | .ok tests => ⟨tests, tests.filterMap tagReport?⟩
  | .error error => ⟨[], [error.diagnostic]⟩

/-- What a path stands for: itself, or what a walk through its folder comes to, of the files in it
those that have a style. -/
def visits (c : ScanConfig) (tree : FileTree) (path : Path) : List FileTree.Visit :=
  match tree.find path with
  | .ok (.folder entries) =>
    FileTree.walk (fun name => !c.ignored.contains name) c.registry.supports path (.folder entries)
  | _ => [.file path]

/-- How a folder is reported that cannot be opened. -/
def folderReport? : FileTree.Visit → Option Diagnostic
  | .file _ => none
  | .closed path error =>
    some ⟨.io, some path, none, s!"IO error for operation on {path.text}: {error.message}"⟩

def duplicateReport (test : Description) : Diagnostic :=
  ⟨.duplicate, some test.file, some test.url, "duplicate test; later declaration dropped"⟩

/-- Keeps the tests of a list whose URL is new, and reports the others. -/
def keepNew (seen : NameSet) : List Description → NameSet × ScanResult
  | [] => (seen, ⟨[], []⟩)
  | test :: rest =>
    if seen.contains test.url then
      let (seen, r) := keepNew seen rest
      (seen, { r with reports := duplicateReport test :: r.reports })
    else
      let (seen, r) := keepNew (seen.add test.url) rest
      (seen, { r with tests := test :: r.tests })

/-- Scans files one after the other, where some URLs have been seen before. -/
def scanFiles (c : ScanConfig) (tree : FileTree) (seen : NameSet) :
    List Path → NameSet × ScanResult
  | [] => (seen, ⟨[], []⟩)
  | file :: rest =>
    let found := c.scanFile tree file
    let (seen, kept) := keepNew seen found.tests
    let (seen, others) := c.scanFiles tree seen rest
    (seen, ⟨kept.tests ++ others.tests, found.reports ++ kept.reports ++ others.reports⟩)

/-- Scans what paths stand for, where some URLs have been seen before. A walk ends before the first
of its files is scanned. -/
def scanEach (c : ScanConfig) (tree : FileTree) (seen : NameSet) : List Path → ScanResult
  | [] => ⟨[], []⟩
  | path :: rest =>
    let visits := c.visits tree path
    let (seen, found) := c.scanFiles tree seen (visits.filterMap FileTree.Visit.file?)
    let others := c.scanEach tree seen rest
    ⟨found.tests ++ others.tests,
      visits.filterMap folderReport? ++ found.reports ++ others.reports⟩

def scanPaths (c : ScanConfig) (tree : FileTree) (paths : List Path) : ScanResult :=
  c.scanEach tree Table.empty paths

def scanSuite (c : ScanConfig) (tree : FileTree) : ScanResult := c.scanPaths tree [c.root]

end ScanConfig

end TestSelection
