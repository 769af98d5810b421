import TestSelection.Context.Builder
import TestSelection.Proofs.Table

/-!
Contexts and how they change. A fact that is set replaces the entry of its name, so of several the
last one counts; a fact that is only added, as those of options are, changes nothing where there is
an entry already. The name `null` has one from the start. So it stands for the text `null` unless
something else is set under that name last, and nothing that sets a fact looks out for it.
-/

namespace TestSelection

namespace Context

variable {c : Context} {name : String} {fact : Fact}

/-! ### Look-ups -/

/-- Of the facts that are set under a name the last one counts. -/
theorem get?_foldl_put (facts : List (String × Fact)) (c : Context) (name : String) :
    (facts.foldl (fun c p => c.put p.1 p.2) c).get? name
      = (Table.find? name facts.reverse).or (c.get? name) := by
  induction facts generalizing c with
  | nil => rfl
  | cons head rest ih =>
      rw [List.foldl_cons, ih, List.reverse_cons, Table.find?_append, Option.or_assoc, get?_put]
      by_cases h : head.1 = name <;> simp [Table.find?, h]

theorem get?_withVmOption (c : Context) (option name : String) :
    (c.withVmOption option).get? name
      = (c.get? name).or ((Table.find? name (VmOption.fact? option).toList).map .value) := by
  unfold withVmOption
  cases VmOption.fact? option with
  | none => simp [Table.find?]
  | some derived =>
      obtain ⟨n, value⟩ := derived
      show (c.setNew n value).get? name = _
      rw [get?_setNew]
      by_cases h : n = name
      · subst h
        cases c.get? n <;> simp [Table.find?]
      · simp [Table.find?, h]

/-- A name keeps its entry, or else has the first fact that an option gives for it. -/
theorem get?_withVmOptions (c : Context) (options : List String) (name : String) :
    (c.withVmOptions options).get? name
      = (c.get? name).or
          ((Table.find? name (options.filterMap VmOption.fact?)).map .value) := by
  unfold withVmOptions
  induction options generalizing c with
  | nil => simp [Table.find?]
  | cons option rest ih =>
      have hderived : (option :: rest).filterMap VmOption.fact?
          = (VmOption.fact? option).toList ++ rest.filterMap VmOption.fact? := by
        rw [List.filterMap_cons]
        cases VmOption.fact? option <;> rfl
      rw [List.foldl_cons, ih, get?_withVmOption, hderived, Table.find?_append, Option.or_assoc]
      cases Table.find? name (VmOption.fact? option).toList <;> rfl

/-! ### Changes -/

/-- What can be done to a context. -/
inductive Change
  | set (name value : String)
  | setNew (name value : String)
  | setUnknown (name reason : String)
  | addOptions (options : List String)

namespace Change

def apply (c : Context) : Change → Context
  | set name value => c.set name value
  | setNew name value => c.setNew name value
  | setUnknown name reason => c.setUnknown name reason
  | addOptions options => c.withVmOptions options

/-- The entry that a change sets, whatever entry the name had. -/
def replacement? : Change → Option (String × Fact)
  | set name value => some (name, .value value)
  | setUnknown name reason => some (name, .unknown reason)
  | setNew _ _ | addOptions _ => none

/-- A name that has an entry keeps it, or gets the one that the change sets. -/
theorem get?_apply (h : c.get? name = some fact) (change : Change) :
    (change.apply c).get? name
      = some ((Table.find? name change.replacement?.toList).getD fact) := by
  cases change with
  | set n value =>
      show (c.put n (.value value)).get? name = _
      rw [get?_put, h]
      by_cases hn : n = name <;> simp [replacement?, Table.find?, hn]
  | setNew n value =>
      show (c.setNew n value).get? name = _
      have hold : ¬ (n = name ∧ c.get? n = none) := by
        rintro ⟨rfl, hnone⟩
        simp [h] at hnone
      rw [get?_setNew, if_neg hold, h]
      rfl
  | setUnknown n reason =>
      show (c.put n (.unknown reason)).get? name = _
      rw [get?_put, h]
      by_cases hn : n = name <;> simp [replacement?, Table.find?, hn]
  | addOptions options =>
      show (c.withVmOptions options).get? name = _
      rw [get?_withVmOptions, h]
      rfl

/-- The entries that changes set, in order. -/
def replacements (changes : List Change) : List (String × Fact) :=
  changes.filterMap replacement?

theorem get?_foldl_apply (h : c.get? name = some fact) (changes : List Change) :
    (changes.foldl apply c).get? name
      = some ((Table.find? name (replacements changes).reverse).getD fact) := by
  induction changes generalizing c fact with
  | nil => exact h
  | cons change rest ih =>
      have hset : replacements (change :: rest)
          = change.replacement?.toList ++ replacements rest := by
        rw [replacements, List.filterMap_cons]
        cases change.replacement? <;> rfl
      have hsingle : change.replacement?.toList.reverse = change.replacement?.toList := by
        cases change.replacement? <;> rfl
      rw [List.foldl_cons, ih (get?_apply h change), hset, List.reverse_append,
        Table.find?_append, hsingle]
      cases Table.find? name (replacements rest).reverse <;> rfl

end Change

/-! ### The name `null` -/

/-- Where a context comes from. -/
inductive Origin
  | empty
  | pairs (values : List (String × String))
  | target (builder : ContextBuilder)

namespace Origin

def context : Origin → Context
  | empty => Context.empty
  | pairs values => Context.ofPairs values
  | target builder => builder.build

/-- The facts under names that are not fixed. -/
def given : Origin → List (String × Fact)
  | empty => []
  | pairs values => values.map fun p => (p.1, .value p.2)
  | target builder => builder.properties.entries

end Origin

theorem get?_null_ofPairs (values : List (String × String)) :
    (ofPairs values).get? nullText
      = some ((Table.find? nullText (Origin.pairs values).given.reverse).getD
          (.value nullText)) := by
  have hput : ofPairs values
      = (Origin.pairs values).given.foldl (fun c p => c.put p.1 p.2) empty := by
    rw [Origin.given, List.foldl_map]
    rfl
  rw [hput, get?_foldl_put, get?_empty_null]
  cases Table.find? nullText (Origin.pairs values).given.reverse <;> rfl

end Context

namespace ContextBuilder

open TestSelection.Context

/-- What is known of a target besides its properties has other names. -/
theorem find?_null_facts (b : ContextBuilder) :
    Table.find? nullText b.facts.reverse = b.properties.get? nullText := by
  have hproperties : Table.find? nullText b.properties.entries.reverse
      = b.properties.get? nullText :=
    Table.find?_reverse b.properties.ordered.nodup nullText
  have hversion (version : String) :
      Table.find? nullText (versionFacts version).reverse = none := by
    simp [versionFacts, Table.find?, nullText]
  have hos (os : OsFacts) : Table.find? nullText (osFacts os).reverse = none := by
    simp [osFacts, Table.find?, nullText]
  have hfactory : threadFactoryFact ≠ nullText := by decide
  unfold facts
  cases b.version <;> cases b.os <;>
    simp [Table.find?_append, Table.find?, hproperties, hversion, hos, hfactory]

theorem get?_null_build (b : ContextBuilder) :
    b.build.get? nullText = some ((b.properties.get? nullText).getD (.value nullText)) := by
  have hput : (b.facts.foldl (fun c p => c.put p.1 p.2) Context.empty).get? nullText
      = some ((b.properties.get? nullText).getD (.value nullText)) := by
    rw [get?_foldl_put, find?_null_facts, get?_empty_null]
    cases b.properties.get? nullText <;> rfl
  rw [build, get?_withVmOptions]
  show ((b.facts.foldl (fun c p => c.put p.1 p.2) Context.empty).get? nullText).or _ = _
  rw [hput]
  rfl

end ContextBuilder

namespace Context

theorem get?_null_origin (origin : Origin) :
    origin.context.get? nullText
      = some ((Table.find? nullText origin.given.reverse).getD (.value nullText)) := by
  cases origin with
  | empty => exact get?_empty_null
  | pairs values => exact get?_null_ofPairs values
  | target builder =>
      rw [Origin.given, Table.find?_reverse builder.properties.ordered.nodup]
      exact builder.get?_null_build

/-- However a context is obtained and changed, its name `null` stands for the text `null` exactly if
nothing else is the last fact to be set under that name. -/
theorem get?_null_iff (origin : Origin) (changes : List Change) :
    (changes.foldl Change.apply origin.context).get? nullText = some (.value nullText) ↔
      ∀ fact, Table.find? nullText (origin.given ++ Change.replacements changes).reverse
          = some fact → fact = .value nullText := by
  rw [Change.get?_foldl_apply (get?_null_origin origin), List.reverse_append, Table.find?_append]
  cases Table.find? nullText (Change.replacements changes).reverse with
  | some fact => simp
  | none => cases Table.find? nullText origin.given.reverse <;> simp

/-- A property of a target replaces the constant, and so does a fact that is set later. -/
theorem get?_null_property :
    let builder : ContextBuilder :=
      { ContextBuilder.empty with properties := Table.empty.insert "null" (.value "x") }
    builder.build.get? nullText = some (.value "x") ∧
      (Context.empty.set "null" "x").get? nullText = some (.value "x") ∧
      Fact.value "x" ≠ .value nullText := by
  decide +kernel

end Context

end TestSelection
