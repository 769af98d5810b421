import TestSelection.Description

/-!
Filters with a memory. A filter of this kind answers by a key of the test: an answer, once given, is
kept for its key and not computed again. A fault is passed on and leaves the memory as it is. Every
answer, kept or new, is shown to the filter together with the test that it was given for.
-/

namespace TestSelection

/-- A filter could not decide. -/
structure FilterFault where
  /-- The name of the filter. -/
  filter : String
  url : String
  reason : String
deriving DecidableEq

def FilterFault.message (f : FilterFault) : String :=
  s!"{f.filter} filter failed for {f.url}: {f.reason}"

/-- The answers kept, by their keys. -/
abbrev Memo (κ : Type) := List (κ × Bool)

/-- A way of deciding, with keys `κ` and a state `σ` of its own. -/
structure KeyedRule (κ σ : Type) where
  key : Description → κ
  /-- The answer for a test whose key has none. -/
  compute : σ → Description → Except FilterFault Bool × σ
  /-- Sees an answer, kept or new. -/
  observe : σ → Description → Bool → Except FilterFault Unit × σ

namespace KeyedRule

variable {κ σ : Type} [DecidableEq κ]

/-- A rule that looks at the test alone and never faults. -/
def pure (key : Description → κ) (decision : Description → Bool) : KeyedRule κ Unit where
  key := key
  compute := fun s test => (.ok (decision test), s)
  observe := fun s _ _ => (.ok (), s)

/-- Shows an answer to the rule and passes it on. -/
def show? (r : KeyedRule κ σ) (s : σ) (test : Description) (answer : Bool) :
    Except FilterFault Bool × σ :=
  match r.observe s test answer with
  | (.ok _, s) => (.ok answer, s)
  | (.error fault, s) => (.error fault, s)

/-- Decides on a test by the memory, or else by the rule. -/
def accepts (r : KeyedRule κ σ) (memo : Memo κ) (s : σ) (test : Description) :
    Except FilterFault Bool × Memo κ × σ :=
  match memo.lookup (r.key test) with
  | some answer =>
    let (result, s) := r.show? s test answer
    (result, memo, s)
  | none =>
    match r.compute s test with
    | (.error fault, s) => (.error fault, memo, s)
    | (.ok answer, s) =>
      let (result, s) := r.show? s test answer
      (result, (r.key test, answer) :: memo, s)

end KeyedRule

end TestSelection
