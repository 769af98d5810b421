import TestSelection.Path
import TestSelection.Table

/-!
Trees of files, and what the paths of a tree lead to. A folder's entries stand in the order of their
names. A path is followed piece by piece from the top: two points lead back to the parent, and
whatever a slash follows has to be a folder. There are no links.
-/

namespace TestSelection

/-- What a file holds. -/
inductive FileContent
  | text (text : String)
  /-- Bytes that are not the UTF-8 form of a text. -/
  | binary (bytes : Nat)
deriving DecidableEq, Inhabited

namespace FileContent

def ofBytes (bytes : ByteArray) : FileContent :=
  match String.fromUTF8? bytes with
  | some s => text s
  | none => binary bytes.size

def size : FileContent → Nat
  | text s => s.utf8ByteSize
  | binary n => n

end FileContent

/-- A file, or a folder of named trees. -/
inductive FileTree
  | file (content : FileContent)
  | folder (entries : List (String × FileTree))
deriving Inhabited

/-- Why a path cannot be used. -/
inductive FileError
  | notFound | notFolder | isFolder | notText | nameTooLong | nullInName
deriving DecidableEq, Repr

/-- The error in the words of an operating system. -/
def FileError.message : FileError → String
  | notFound => "No such file or directory (os error 2)"
  | notFolder => "Not a directory (os error 20)"
  | isFolder => "Is a directory (os error 21)"
  | notText => "stream did not contain valid UTF-8"
  | nameTooLong => "File name too long (os error 36)"
  | nullInName => "file name contained an unexpected NUL byte"

namespace FileTree

def maxNameBytes : Nat := 255

def maxFollowedBytes : Nat := 4095

/-- Refuses a path that cannot be followed, whatever the tree; else its pieces between slashes. -/
def piecesOf (p : Path) : Except FileError (List (List Char)) :=
  if Text.has '\x00' p.text then .error .nullInName
  else if p.text.isEmpty then .error .notFound
  else if maxFollowedBytes < p.text.utf8ByteSize then .error .nameTooLong
  else .ok (Chars.splitAt '/' p.text.toList)

def empty : FileTree := folder []

/-- The entries of a folder; a file has none. -/
def entries : FileTree → List (String × FileTree)
  | folder es => es
  | file _ => []

def isFolder : FileTree → Bool
  | folder _ => true
  | file _ => false

/-- The tree at a place, given by the names on the way. -/
def at? (t : FileTree) : List String → Option FileTree
  | [] => some t
  | name :: rest =>
    match Table.find? name t.entries with
    | some sub => sub.at? rest
    | none => none

/-- One step of following a path from a place. -/
def follow (t : FileTree) (place : List String) (piece : List Char) :
    Except FileError (List String) :=
  match t.at? place with
  | none => .error .notFound
  | some (file _) => .error .notFolder
  | some (folder es) =>
    if piece = [] ∨ piece = ['.'] then .ok place
    else if piece = ['.', '.'] then .ok place.dropLast
    else if maxNameBytes < Chars.byteSize piece then .error .nameTooLong
    else
      let name := String.ofList piece
      if (Table.find? name es).isSome then .ok (place ++ [name]) else .error .notFound

/-- The place that a path leads to; a relative path starts at the top as well. -/
def locate (t : FileTree) (p : Path) : Except FileError (List String) := do
  (← piecesOf p).foldlM t.follow []

/-- The tree that a path leads to. -/
def find (t : FileTree) (p : Path) : Except FileError FileTree := do
  match t.at? (← t.locate p) with
  | some sub => return sub
  | none => throw .notFound

def hasPath (t : FileTree) (p : Path) : Bool := (t.find p).toOption.isSome

def hasFolder (t : FileTree) (p : Path) : Bool := ((t.find p).toOption.map isFolder).getD false

/-- The paths of the entries of the folder that a path leads to, in order. -/
def children (t : FileTree) (p : Path) : List Path :=
  match t.find p with
  | .ok (folder es) => es.map fun (name, _) => p.join name
  | _ => []

/-- The content of the file that a path leads to. -/
def content (t : FileTree) (p : Path) : Except FileError FileContent := do
  match ← t.find p with
  | file c => return c
  | folder _ => throw .isFolder

def readText (t : FileTree) (p : Path) : Except FileError String := do
  match ← t.content p with
  | .text s => return s
  | .binary _ => throw .notText

/-- Puts a tree at a place; folders are made on the way, and a folder that is there already stays
when an empty one is put. -/
def put (new : FileTree) : List String → FileTree → FileTree
  | [], old =>
    match new, old with
    | folder [], folder es => folder es
    | new, _ => new
  | name :: rest, old =>
    let sub := (Table.find? name old.entries).getD empty
    folder (Table.place name (put new rest sub) old.entries)

/-- Takes away what is at a place. -/
def remove : List String → FileTree → FileTree
  | [], _ => empty
  | [name], t => folder (t.entries.filter (·.1 != name))
  | name :: rest, t =>
    match Table.find? name t.entries with
    | some sub => folder (Table.place name (remove rest sub) t.entries)
    | none => t

/-- The place that a path names, whether or not anything is there. -/
def placeOf (p : Path) : List String :=
  p.parts.foldl (fun place part =>
    match part with
    | .name n => place ++ [n]
    | .up => place.dropLast
    | .root | .here => place) []

/-- What a walk through a folder comes to. -/
inductive Visit
  | file (path : Path)
  /-- A folder that cannot be opened. -/
  | closed (path : Path) (error : FileError)
deriving DecidableEq

def Visit.file? : Visit → Option Path
  | file path => some path
  | closed .. => none

mutual

/-- What a walk through a tree comes to, in the order of paths: the files that have the property
`keep`, and the folders with a path that cannot be followed. Only folders with a name that has the
property `enter` are looked into. -/
def walk (enter : String → Bool) (keep : Path → Bool) (p : Path) : FileTree → List Visit
  | file _ => if keep p then [.file p] else []
  | folder es =>
    match piecesOf p with
    | .ok _ => walkAmong enter keep p es
    | .error error => [.closed p error]

/-- What a walk through the entries of a folder comes to. -/
def walkAmong (enter : String → Bool) (keep : Path → Bool) (p : Path) :
    List (String × FileTree) → List Visit
  | [] => []
  | (name, sub) :: rest =>
    (if sub.isFolder && !enter name then [] else walk enter keep (p.join name) sub)
      ++ walkAmong enter keep p rest

end

/-- The place at which a file opened for adding to it is, or will be. -/
def placeForAppend (t : FileTree) (p : Path) : Except FileError (List String) := do
  let pieces ← piecesOf p
  let named := (pieces.reverse.dropWhile (· == [])).reverse
  match named.getLast? with
  | none => throw .isFolder
  | some last =>
    let place ← named.dropLast.foldlM t.follow []
    if last = ['.'] ∨ last = ['.', '.'] then
      let _ ← t.follow place last
      throw .isFolder
    else
      match t.at? place with
      | some (folder es) =>
        if maxNameBytes < Chars.byteSize last then throw .nameTooLong
        let name := String.ofList last
        if named.length < pieces.length then throw .isFolder
        match Table.find? name es with
        | some (folder _) => throw .isFolder
        | _ => return place ++ [name]
      | some (file _) => throw .notFolder
      | none => throw .notFound

/-- Adds a text at the end of a file, which is made if it is not there. -/
def append (t : FileTree) (p : Path) (more : String) : Except FileError FileTree := do
  let place ← t.placeForAppend p
  let before := match t.at? place with
    | some (file (.text s)) => s
    | _ => ""
  return put (file (.text (before ++ more))) place t

end FileTree

end TestSelection
