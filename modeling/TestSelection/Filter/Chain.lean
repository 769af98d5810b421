import TestSelection.Diagnostic
import TestSelection.Filter.Basic

/-!
Chains of filters. A test is asked of one filter after the other, up to the first that rejects it or
faults. A selection sorts the tests of a list accordingly and reports the faults, and after them the
requirements that could not be evaluated.
-/

namespace TestSelection

/-- Filters in the order in which they are asked, and the expressions that they have read. -/
structure FilterChain where
  exprs : ExprCache
  filters : List Filter

/-- A rejected test, and the filter that rejected it. -/
structure Rejection where
  url : String
  filter : String
  reason : String
deriving DecidableEq

/-- The tests of a list, sorted; each part keeps the order of the list. -/
structure Selection where
  accepted : List Description
  rejected : List Rejection
  /-- The tests on which a filter could not decide. -/
  faulted : List (String × FilterFault)
  reports : List Diagnostic

namespace FilterChain

/-- The chain without filters accepts every test. -/
def empty : FilterChain := ⟨ExprCache.empty, []⟩

def push (c : FilterChain) (f : Filter) : FilterChain := { c with filters := c.filters ++ [f] }

def names (c : FilterChain) : List String := c.filters.map Filter.name

/-- Asks filters in order, up to the first that rejects the test or faults. -/
def ask (exprs : ExprCache) (test : Description) :
    List Filter → Except FilterFault (Option Filter) × ExprCache × List Filter
  | [] => (.ok none, exprs, [])
  | f :: rest =>
    match f.accepts exprs test with
    | (.error fault, exprs, f) => (.error fault, exprs, f :: rest)
    | (.ok false, exprs, f) => (.ok (some f), exprs, f :: rest)
    | (.ok true, exprs, f) =>
      let (result, exprs, rest) := ask exprs test rest
      (result, exprs, f :: rest)

def firstRejection (c : FilterChain) (test : Description) :
    Except FilterFault (Option Filter) × FilterChain :=
  let (result, exprs, filters) := ask c.exprs test c.filters
  (result, ⟨exprs, filters⟩)

def accepts (c : FilterChain) (test : Description) : Except FilterFault Bool × FilterChain :=
  let (result, c) := c.firstRejection test
  (result.map Option.isNone, c)

/-- Why the requirements of tests could not be evaluated, as the last filter for requirements has
recorded it. -/
def requirementFaults (c : FilterChain) : Table String :=
  (c.filters.reverse.findSome? fun f =>
    match f with
    | .requires _ _ record => some record.byUrl
    | _ => none).getD Table.empty

/-- The tests that the last filter for keywords has rejected although they are to be ignored. -/
def ignoredTests (c : FilterChain) : NameSet :=
  (c.filters.reverse.findSome? fun f =>
    match f with
    | .keyword _ _ ignored => some ignored
    | _ => none).getD Table.empty

/-- How a problem of a filter with a test is reported. -/
def filterReport (test : Description) (message : String) : Diagnostic :=
  ⟨.filter, some test.file, some test.url, message⟩

/-- Sorts the tests of a list, one after the other. -/
def sort (c : FilterChain) : List Description → Selection × FilterChain
  | [] => (⟨[], [], [], []⟩, c)
  | test :: rest =>
    let (result, c) := c.firstRejection test
    let (s, c) := c.sort rest
    match result with
    | .ok none => ({ s with accepted := test :: s.accepted }, c)
    | .ok (some f) => ({ s with rejected := ⟨test.url, f.name, f.reason⟩ :: s.rejected }, c)
    | .error fault =>
      ({ s with
          faulted := (test.url, fault) :: s.faulted
          reports := filterReport test fault.message :: s.reports }, c)

/-- Sorts the tests of a list and reports the requirements that could not be evaluated. -/
def select (c : FilterChain) (tests : List Description) : Selection × FilterChain :=
  let (s, c) := c.sort tests
  let faults := c.requirementFaults
  let reports := tests.filterMap fun test => (faults.get? test.url).map (filterReport test)
  ({ s with reports := s.reports ++ reports }, c)

end FilterChain

end TestSelection
