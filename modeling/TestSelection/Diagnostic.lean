import TestSelection.Path
import TestSelection.Text.Quoted

/-!
Diagnostics: problems that are reported and do not stop the work, and the log that they are written
to, one line of JSON for each.
-/

namespace TestSelection

/-- What a diagnostic is about. -/
inductive DiagnosticKind
  | parse | io | duplicate | group | filter | config
deriving DecidableEq, Repr

namespace DiagnosticKind

def all : List DiagnosticKind := [parse, io, duplicate, group, filter, config]

def label : DiagnosticKind → String
  | parse => "parse"
  | io => "io"
  | duplicate => "duplicate"
  | group => "group"
  | filter => "filter"
  | config => "config"

def ofLabel? (name : String) : Option DiagnosticKind := all.find? (·.label == name)

end DiagnosticKind

/-- A reported problem, with the file and the test that it concerns. -/
structure Diagnostic where
  kind : DiagnosticKind
  path : Option Path
  url : Option String
  message : String
deriving DecidableEq

namespace Diagnostic

/-- The diagnostic in one line. -/
def render (d : Diagnostic) : String :=
  "[" ++ d.kind.label ++ "]"
    ++ (match d.path with
      | some p => " " ++ p.text
      | none => "")
    ++ (match d.url with
      | some u => " " ++ u
      | none => "")
    ++ ": " ++ d.message

/-- The fields of the JSON form in order; absent ones are left out. -/
def jsonFields (d : Diagnostic) : List (String × String) :=
  [("kind", d.kind.label)] ++ (d.path.map fun p => ("path", p.text)).toList
    ++ (d.url.map fun u => ("url", u)).toList ++ [("message", d.message)]

/-- The JSON form, without blanks. -/
def json (d : Diagnostic) : String :=
  "\x7b" ++ ",".intercalate (d.jsonFields.map fun (k, v) => Text.quoted k ++ ":" ++ Text.quoted v)
    ++ "\x7d"

def ofKind (kind : DiagnosticKind) (ds : List Diagnostic) : List Diagnostic :=
  ds.filter (·.kind == kind)

end Diagnostic

/-- Why a diagnostic could not be logged. -/
inductive LogError
  | openFailed (path : Path) (reason : String)
  | writeFailed (reason : String)
deriving DecidableEq

def LogError.message : LogError → String
  | openFailed path reason => s!"log open failed: {path.text}: {reason}"
  | writeFailed reason => s!"log write failed: {reason}"

/-- A log. Every line is written, but the flush after it may fail: `flush n` is the reason why flush
number `n`, counted from zero, fails. -/
structure Log where
  flush : Nat → Option String
  flushes : Nat
  text : String
  /-- How many reports could not be flushed. -/
  failures : Nat

namespace Log

def start (flush : Nat → Option String) : Log := ⟨flush, 0, "", 0⟩

/-- Writes a diagnostic as a line and flushes. -/
def write (l : Log) (d : Diagnostic) : Except LogError Unit × Log :=
  let written := { l with text := l.text ++ d.json ++ "\n", flushes := l.flushes + 1 }
  match l.flush l.flushes with
  | some reason => (.error (.writeFailed reason), written)
  | none => (.ok (), written)

/-- Writes a diagnostic and counts a failure. -/
def report (l : Log) (d : Diagnostic) : Log :=
  match l.write d with
  | (.ok _, l) => l
  | (.error _, l) => { l with failures := l.failures + 1 }

end Log

end TestSelection
