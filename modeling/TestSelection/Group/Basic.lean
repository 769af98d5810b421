import TestSelection.Diagnostic
import TestSelection.Group.PathSet
import TestSelection.Group.Properties
import TestSelection.Group.Wildcard

/-!
Groups of tests. A group is a list of entries, each of which adds or takes away a path, a wildcard
or another group, and is gathered from all files that define it. What is wrong with a group makes it
invalid and is reported, but does not stop the reading.
-/

namespace TestSelection

/-- What an entry of a group stands for. -/
inductive GroupTarget
  /-- A path, the last part of which may have stars. -/
  | path (path : Path)
  | group (name : String)
deriving DecidableEq

/-- An entry of a group. -/
structure GroupEntry where
  /-- Whether the entry takes away. -/
  exclude : Bool
  target : GroupTarget
deriving DecidableEq

/-- What is wrong with a group. -/
inductive GroupProblem
  | invalidName (line : Nat)
  | emptyReference (token : String)
  | emptyPath (token : String)
  | missingFile (body : String)
  /-- The groups that refer to each other in a circle. -/
  | cycle (members : List String)
  /-- A group that is not defined, not valid or empty. -/
  | badReference (name : String)
deriving DecidableEq

def GroupProblem.message : GroupProblem → String
  | invalidName line => s!"invalid group name at line {line}"
  | emptyReference token => s!"empty group reference: {token}"
  | emptyPath token => s!"empty path: {token}"
  | missingFile body => s!"file not found: {body}"
  | cycle members => "cyclic group reference: " ++ ", ".intercalate members
  | badReference name => s!"group not found: {name}"

/-- A group as gathered from all files. -/
structure Group where
  entries : List GroupEntry
  /-- The files that define the group, once for each time. -/
  sources : List Path
  problems : List GroupProblem
deriving DecidableEq

namespace Group

/-- A group of which nothing is known. -/
def empty : Group := ⟨[], [], []⟩

def isValid (g : Group) : Bool := g.problems.isEmpty

/-- The groups that a group refers to, in the order of its entries. -/
def references (g : Group) : List String :=
  g.entries.filterMap fun e =>
    match e.target with
    | .group name => some name
    | .path _ => none

def blame (g : Group) (problem : GroupProblem) : Group :=
  { g with problems := g.problems ++ [problem] }

/-- A letter, then letters, digits and underscores, all of ASCII. -/
def isName (name : String) : Bool :=
  match name.toList with
  | [] => false
  | c :: s => c.isAlpha && s.all Chars.isWordChar

/-- The path that a token stands for: below the root if it starts with a slash, else below the
directory of its file. -/
def pathOfToken (root base : Path) (body : List Char) : Path :=
  match Chars.dropBack '/' body with
  | '/' :: rest => root.join (String.ofList rest)
  | s => base.join (String.ofList s)

/-- Whether a path leads to something, or may have entries that its wildcard stands for. -/
def isThere (tree : FileTree) (p : Path) : Bool :=
  if p.hasWildcard then
    match p.parent? with
    | some parent => tree.hasFolder parent
    | none => false
  else tree.hasPath p

/-- The entry that a token stands for. -/
def entryOfToken (tree : FileTree) (root base : Path) (token : List Char) :
    Except GroupProblem GroupEntry :=
  let (exclude, body) := match token with
    | '-' :: body => (true, body)
    | body => (false, body)
  match body with
  | [':'] => .error (.emptyReference (String.ofList token))
  | ':' :: name => .ok ⟨exclude, .group (String.ofList name)⟩
  | body =>
    if body.all (· == '/') then .error (.emptyPath (String.ofList token))
    else
      let p := pathOfToken root base body
      if isThere tree p then .ok ⟨exclude, .path p⟩
      else .error (.missingFile (String.ofList body))

/-- Adds entries and problems. -/
def addAll (g : Group) (read : List (Except GroupProblem GroupEntry)) : Group :=
  let problem? (r : Except GroupProblem GroupEntry) : Option GroupProblem :=
    match r with
    | .ok _ => none
    | .error problem => some problem
  { g with
    entries := g.entries ++ read.filterMap Except.toOption
    problems := g.problems ++ read.filterMap problem? }

/-- Adds what a property of a file says of a group. -/
def addProperty (tree : FileTree) (root file : Path) (g : Group) (p : Property) : Group :=
  let base := file.parent?.getD root
  let g := { g with sources := g.sources ++ [file] }
  let g := if isName p.key then g else g.blame (.invalidName p.line)
  g.addAll ((Chars.words p.value.toList).map (entryOfToken tree root base))

end Group

abbrev Groups := Table Group

namespace Groups

/-- Adds the groups that the text of a file defines. -/
def addFile (tree : FileTree) (root file : Path) (gs : Groups) (text : String) : Groups :=
  (Property.ofText text).foldl (fun gs p =>
    Table.insert gs p.key (Group.addProperty tree root file ((gs.get? p.key).getD .empty) p)) gs

/-- The defined groups that a group refers to. -/
def defined (gs : Groups) (g : Group) : List String := g.references.filter gs.contains

/-- Adds to a set of groups those that they refer to. -/
def widen (gs : Groups) (s : NameSet) : NameSet :=
  s.names.foldl (fun s name =>
    match gs.get? name with
    | some g => (gs.defined g).foldl NameSet.add s
    | none => s) s

/-- Widens a set until nothing is new; as many turns as there are groups are enough. -/
def close (gs : Groups) : Nat → NameSet → NameSet
  | 0, s => s
  | turns + 1, s =>
    let wider := gs.widen s
    if wider.size = s.size then s else close gs turns wider

/-- The groups that a group leads to by one or more references. -/
def reached (gs : Groups) (g : Group) : NameSet :=
  gs.close gs.size (NameSet.ofNames (gs.defined g))

/-- The groups that lead to each other with the given one, in order; none if it does not lead back
to itself. -/
def circleOf (reach : Table NameSet) (name : String) : List String :=
  match reach.get? name with
  | none => []
  | some names =>
    if names.contains name then
      names.names.filter fun other =>
        match reach.get? other with
        | some back => back.contains name
        | none => false
    else []

/-- Marks the groups that lead back to themselves. -/
def markCycles (gs : Groups) : Groups :=
  let reach := Table.map gs.reached gs
  Table.ofList (gs.entries.map fun (name, g) =>
    match circleOf reach name with
    | [] => (name, g)
    | members => (name, g.blame (.cycle members)))

def isUsable (gs : Groups) (name : String) : Bool :=
  match gs.get? name with
  | some g => g.isValid && !g.entries.isEmpty
  | none => false

/-- The references of a valid group that do not lead to a usable one. -/
def badReferences (gs : Groups) (g : Group) : List String :=
  if g.isValid then g.references.filter (!gs.isUsable ·) else []

def blameReferences (gs : Groups) (g : Group) : Group :=
  { g with problems := g.problems ++ (gs.badReferences g).map .badReference }

/-- Marks the valid groups that refer to a group that is not usable, again and again until there are
none. Each turn but the last makes a group invalid, so the number of groups bounds the turns. -/
def markReferences : Nat → Groups → Groups
  | 0, gs => gs
  | turns + 1, gs =>
    if gs.entries.all fun (_, g) => gs.badReferences g == [] then gs
    else markReferences turns (Table.map gs.blameReferences gs)

/-- Marks all groups that are invalid because of others. -/
def marked (gs : Groups) : Groups := markReferences gs.size gs.markCycles

def reports (gs : Groups) : List Diagnostic :=
  gs.entries.flatMap fun (name, g) => g.problems.map fun problem =>
    ⟨.group, g.sources.head?, none, s!"group {name}: {problem.message}"⟩

end Groups

/-- Groups, the suite root that they belong to and the rules for opening folders. -/
structure GroupSet where
  root : Path
  rules : PathRules
  groups : Groups

namespace GroupSet

/-- Reads the files that define groups; one that cannot be read is reported, unless it is missing
and may be. -/
def readFiles (tree : FileTree) (root : Path) (gs : Groups) :
    List GroupFile → Groups × List Diagnostic
  | [] => (gs, [])
  | file :: rest =>
    match tree.readText file.path with
    | .ok text => readFiles tree root (gs.addFile tree root file.path text) rest
    | .error error =>
      let (gs, reports) := readFiles tree root gs rest
      if file.optional && error == .notFound then (gs, reports)
      else
        (gs, ⟨.io, some file.path, none, s!"cannot read group file: {error.message}"⟩ :: reports)

/-- Reads and checks groups. -/
def load (tree : FileTree) (root : Path) (rules : PathRules) (files : List GroupFile) :
    GroupSet × List Diagnostic :=
  let (gs, reports) := readFiles tree root Table.empty files
  let gs := gs.marked
  (⟨root, rules, gs⟩, reports ++ gs.reports)

/-- Reads and checks the groups of a suite, whose files are below the root. -/
def loadSuite (tree : FileTree) (root : Path) (suite : SuiteConfig) (rules : PathRules) :
    GroupSet × List Diagnostic :=
  load tree root rules (suite.groupFiles.map fun file =>
    { file with path := root.join file.path.text })

def names (s : GroupSet) : List String := s.groups.names

/-- The names of the groups that something is wrong with. -/
def invalidNames (s : GroupSet) : List String :=
  (s.groups.entries.filter fun (_, g) => !g.isValid).map (·.1)

end GroupSet

end TestSelection
