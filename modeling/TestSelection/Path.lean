import TestSelection.Text

/-!
Paths. A path keeps the text it was built from, but is compared, ordered and tested for being below
another by its parts: repeated and closing slashes and parts that stand for the same directory do
not count, except one at the very front.
-/

namespace TestSelection

/-- A part of a path. -/
inductive PathPart
  /-- The slash at the front. -/
  | root
  /-- The single point at the front. -/
  | here
  /-- Two points, for the parent. -/
  | up
  | name (name : String)
deriving DecidableEq

namespace PathPart

def text : PathPart → String
  | root => "/"
  | here => "."
  | up => ".."
  | name n => n

/-- The place of the kinds in the order of parts. -/
def rank : PathPart → Nat
  | root => 0
  | here => 1
  | up => 2
  | name _ => 3

/-- Parts of one kind are equal, except names, which stand in the order of names. -/
def Less (a b : PathPart) : Prop :=
  a.rank < b.rank ∨ (a.rank = b.rank ∧ a.text < b.text)

instance : LT PathPart := ⟨Less⟩

instance : DecidableLT PathPart := fun a b =>
  inferInstanceAs (Decidable (a.rank < b.rank ∨ (a.rank = b.rank ∧ a.text < b.text)))

/-- The part that a piece between slashes stands for, at any place but the front. -/
def ofPiece? (piece : List Char) : Option PathPart :=
  if piece = [] ∨ piece = ['.'] then none
  else if piece = ['.', '.'] then some up
  else some (name (String.ofList piece))

end PathPart

/-- A path, kept as its text. -/
structure Path where
  text : String
deriving DecidableEq, Inhabited

namespace Path

/-- The parts of a text. -/
def partsOf : List Char → List PathPart
  | '/' :: rest => .root :: (Chars.splitAt '/' rest).filterMap PathPart.ofPiece?
  | s =>
    match Chars.splitAt '/' s with
    | ['.'] :: pieces => .here :: pieces.filterMap PathPart.ofPiece?
    | pieces => pieces.filterMap PathPart.ofPiece?

def parts (p : Path) : List PathPart := partsOf p.text.toList

/-- Whether a path starts at the top. -/
def isAbsolute (p : Path) : Bool := p.text.toList.head? == some '/'

def same (p q : Path) : Bool := p.parts == q.parts

def less (p q : Path) : Bool := p.parts < q.parts

/-- Whether a path is another one or below it. -/
def isWithin (p base : Path) : Bool := base.parts.isPrefixOf p.parts

def isBelow (p base : Path) : Bool := p.isWithin base && !p.same base

/-- Goes on from a path; an absolute path stands for itself. -/
def join (p : Path) (rest : String) : Path :=
  if rest.toList.head? = some '/' then ⟨rest⟩
  else
    match p.text.toList.getLast? with
    | none => ⟨rest⟩
    | some '/' => ⟨p.text ++ rest⟩
    | some _ => ⟨p.text ++ "/" ++ rest⟩

/-- The pieces between slashes without the idle ones at the end; the point at the front of a
relative path is not idle. -/
def trimPieces (isAbsolute : Bool) (pieces : List (List Char)) : List (List Char) :=
  match pieces with
  | [] => []
  | first :: rest =>
    let idle := fun piece : List Char => piece == [] || piece == ['.']
    let rest := (rest.reverse.dropWhile idle).reverse
    if rest = [] && (first = [] || (isAbsolute && first = ['.'])) then [] else first :: rest

def joinPieces (pieces : List (List Char)) : List Char := ['/'].intercalate pieces

/-- The path without its last part; the top and the empty path have no parent. -/
def parent? (p : Path) : Option Path :=
  let (isAbsolute, body) :=
    match p.text.toList with
    | '/' :: rest => (true, rest)
    | s => (false, s)
  let pieces := trimPieces isAbsolute (Chars.splitAt '/' body)
  if pieces = [] then none
  else
    let front := joinPieces (trimPieces isAbsolute pieces.dropLast)
    some ⟨String.ofList (if isAbsolute then '/' :: front else front)⟩

def fileName? (p : Path) : Option String :=
  match p.parts.getLast? with
  | some (.name n) => some n
  | _ => none

/-- A file name before and after its last point; a point at the front does not count. -/
def splitName? (name : String) : Option (String × String) :=
  (Text.cutLast '.' name).filter fun (stem, _) => !stem.isEmpty

def extension? (p : Path) : Option String :=
  (p.fileName?.bind splitName?).map (·.2)

/-- The parts below a base, if the path is within it. -/
def partsWithin? (p base : Path) : Option (List PathPart) :=
  if p.isWithin base then some (p.parts.drop base.parts.length) else none

/-- Puts a path at its place in an ordered list, unless it is there already. -/
def insertOrdered (p : Path) : List Path → List Path
  | [] => [p]
  | q :: rest =>
    if p.less q then p :: q :: rest
    else if p.same q then q :: rest
    else q :: insertOrdered p rest

def orderedSet (paths : List Path) : List Path := paths.foldl (fun s p => insertOrdered p s) []

end Path

end TestSelection
