import TestSelection.Group.Basic

/-!
The files of groups. The entries of a group give paths to add and paths to take away; what remains
of the former when the latter are taken away are the files of the group. The files of a group are
found once and kept.
-/

namespace TestSelection

/-- Why a group has no files. -/
inductive GroupError
  | invalid (name : String) (problems : List GroupProblem)
  | unknown (name : String)
deriving DecidableEq

def GroupError.message : GroupError → String
  | invalid name problems =>
    s!"invalid group {name}: " ++ "; ".intercalate (problems.map GroupProblem.message)
  | unknown name => s!"group not found: {name}"

/-- The files of a group, and the slot at which they are kept. -/
structure KeptFiles where
  slot : Nat
  files : List Path
deriving DecidableEq

/-- The files of the groups that have been asked for. -/
abbrev GroupMemo := Table KeptFiles

namespace GroupSet

/-- What is added and what is taken away, entry by entry. -/
abbrev Sides := List (Bool × List Path)

/-- What remains of all that is added when all that is taken away is. -/
def combine (s : GroupSet) (tree : FileTree) (sides : Sides) : List Path :=
  let included := PathSet.ofList ((sides.filter (!·.1)).flatMap (·.2))
  let excluded := Path.orderedSet ((sides.filter (·.1)).flatMap (·.2))
  Path.orderedSet (included.flatMap fun p => s.rules.subtract tree p excluded)

/-- The paths that a path of an entry stands for. -/
def pathsOf (tree : FileTree) (p : Path) : List Path :=
  if p.hasWildcard then p.expandWildcard tree else [p]

/-- The group of a name, which has to be valid. -/
def validGroup (s : GroupSet) (name : String) : Except GroupError Group :=
  match s.groups.get? name with
  | none => .error (.unknown name)
  | some g => if g.isValid then .ok g else .error (.invalid name g.problems)

/-- The paths of each entry of a list, where `files` finds the files of groups and keeps them. -/
def sidesWith (files : GroupMemo → String → Except GroupError KeptFiles × GroupMemo)
    (tree : FileTree) (memo : GroupMemo) : List GroupEntry → Except GroupError Sides × GroupMemo
  | [] => (.ok [], memo)
  | e :: rest =>
    let (paths, memo) : Except GroupError (List Path) × GroupMemo :=
      match e.target with
      | .path p => (.ok (pathsOf tree p), memo)
      | .group name =>
        let (kept, memo) := files memo name
        (kept.map KeptFiles.files, memo)
    match paths with
    | .error error => (.error error, memo)
    | .ok paths =>
      let (sides, memo) := sidesWith files tree memo rest
      (sides.map ((e.exclude, paths) :: ·), memo)

/-- The files of a group, found through at most so many groups one below the other. -/
def filesThrough (s : GroupSet) (tree : FileTree) :
    Nat → GroupMemo → String → Except GroupError KeptFiles × GroupMemo
  | 0, memo, name => (.error (.unknown name), memo)
  | depth + 1, memo, name =>
    match s.validGroup name with
    | .error error => (.error error, memo)
    | .ok g =>
      match memo.get? name with
      | some kept => (.ok kept, memo)
      | none =>
        match sidesWith (s.filesThrough tree depth) tree memo g.entries with
        | (.error error, memo) => (.error error, memo)
        | (.ok sides, memo) =>
          match memo.get? name with
          | some kept => (.ok kept, memo)
          | none =>
            let kept : KeptFiles := ⟨memo.size, s.combine tree sides⟩
            (.ok kept, memo.insert name kept)

/-- The files of a group. The groups of a set do not go in circles, so one level more than there are
groups is enough. -/
def filesFor (s : GroupSet) (tree : FileTree) (memo : GroupMemo) (name : String) :
    Except GroupError KeptFiles × GroupMemo :=
  s.filesThrough tree (s.groups.size + 1) memo name

/-- Adds the files of several groups to a set, up to the first error. -/
def filesForEach (s : GroupSet) (tree : FileTree) (memo : GroupMemo) (files : PathSet) :
    List String → Except GroupError PathSet × GroupMemo
  | [] => (.ok files, memo)
  | name :: rest =>
    match s.filesFor tree memo name with
    | (.error error, memo) => (.error error, memo)
    | (.ok kept, memo) => s.filesForEach tree memo (kept.files.foldl PathSet.add files) rest

/-- The files of several groups as one set. -/
def filesForAll (s : GroupSet) (tree : FileTree) (memo : GroupMemo) (names : List String) :
    Except GroupError PathSet × GroupMemo :=
  s.filesForEach tree memo [] names

end GroupSet

end TestSelection
