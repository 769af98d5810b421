import TestSelection.Proofs.Tag.Step

/-!
Tags do not interfere. Each field of a declaration follows from the tags that are meant for it: any
other tag leaves it as it is, and what one of its own tags makes of it depends on the field alone.
So two lists in which these tags are the same give the same field, whatever else stands in them.
Libraries are the exception: they follow from the tags for libraries and for actions together, as
they are in order only in front of all actions. The error is that of the first tag that raises one.
-/

namespace TestSelection

namespace TagEntry

/-- A tag without its place. -/
def content (e : TagEntry) : TagEntry := { e with line := 0 }

@[simp] theorem baseName_content (e : TagEntry) : e.content.baseName = e.baseName := rfl

@[simp] theorem options_content (e : TagEntry) : e.content.options = e.options := rfl

@[simp] theorem flat_content (e : TagEntry) : e.content.flat = e.flat := rfl

def isNamed (name : String) (e : TagEntry) : Bool := e.name == name

/-- Two lists have the same tags of one kind, in the same order. -/
def Agree (kind : TagEntry → Bool) (s t : List TagEntry) : Prop :=
  (s.filter kind).map content = (t.filter kind).map content

instance (kind : TagEntry → Bool) (s t : List TagEntry) : Decidable (Agree kind s t) :=
  inferInstanceAs (Decidable (_ = _))

end TagEntry

namespace Declaration

open TagEntry

variable {rules : TagRules} {kind : TagEntry → Bool} {α : Type} {view : Declaration → α}
  {s t : List TagEntry}

/-! ### Views that follow from tags of one kind -/

/-- A view of declarations follows from the tags of one kind. -/
structure Follows (rules : TagRules) (kind : TagEntry → Bool) (view : Declaration → α) : Prop where
  /-- A tag of another kind leaves the view as it is. -/
  other : ∀ d e, kind e = false → view (apply rules d e) = view d
  /-- A tag does not tell apart what looks the same. -/
  same : ∀ d d' e, view d = view d' → view (apply rules d e) = view (apply rules d' e)

/-- A tag of the kind that changes the view by a function of it. -/
theorem Follows.of_step (change : α → TagEntry → α)
    (h : ∀ d e, view (apply rules d e) = if kind e then change (view d) e else view d) :
    Follows rules kind view where
  other d e hkind := by rw [h, hkind, if_neg Bool.false_ne_true]
  same d d' e hview := by rw [h, h, hview]

/-- All tags of other kinds can be left out. -/
theorem Follows.foldl_filter (h : Follows rules kind view) (entries : List TagEntry) :
    ∀ d d', view d = view d' →
      view (entries.foldl (apply rules) d) = view ((entries.filter kind).foldl (apply rules) d') := by
  -- the run over the tags of the kind has its own state, which only looks the same
  induction entries with
  | nil => exact fun _ _ hview => hview
  | cons e rest ih =>
      intro d d' hview
      cases hkind : kind e with
      | false =>
          rw [List.foldl_cons, List.filter_cons_of_neg (by simp [hkind])]
          exact ih _ _ ((h.other d e hkind).trans hview)
      | true =>
          rw [List.foldl_cons, List.filter_cons_of_pos hkind, List.foldl_cons]
          exact ih _ _ (h.same d d' e hview)

theorem actionOf_content (e : TagEntry) : actionOf e.content = actionOf e := by
  by_cases hrun : e.baseName = "run" <;> simp [actionOf, hrun]

theorem applyAction_content (d : Declaration) (e : TagEntry) :
    d.applyAction e.content = d.applyAction e := by
  rw [applyAction, applyAction, actionOf_content]

/-- The place of a tag does not matter. -/
theorem apply_content (rules : TagRules) (d : Declaration) (e : TagEntry) :
    apply rules d e.content = apply rules d e := by
  unfold apply
  rw [applyAction_content]
  rfl

theorem foldl_apply_content (rules : TagRules) (entries : List TagEntry) (d : Declaration) :
    (entries.map content).foldl (apply rules) d = entries.foldl (apply rules) d := by
  simp only [List.foldl_map, apply_content]

theorem Follows.view_eq (h : Follows rules kind view) (hagree : Agree kind s t) :
    view (ofEntries rules s) = view (ofEntries rules t) :=
  calc view (ofEntries rules s)
      = view (((s.filter kind).map content).foldl (apply rules) empty) := by
        rw [foldl_apply_content]; exact h.foldl_filter s empty empty rfl
    _ = view (((t.filter kind).map content).foldl (apply rules) empty) := by rw [hagree]
    _ = view (ofEntries rules t) := by
        rw [foldl_apply_content]; exact (h.foldl_filter t empty empty rfl).symm

/-! ### The fields -/

theorem follows_actions (rules : TagRules) : Follows rules isAction actions :=
  .of_step (fun actions e => actions ++ newActions e) fun d e => by
    rw [apply_eq]
    by_cases haction : isAction e = true <;> simp [haction, newActions]

/-- Libraries follow only together with actions. -/
theorem follows_libraries (rules : TagRules) :
    Follows rules (fun e => isAction e || isNamed "library" e) fun d => (d.actions, d.libraries) where
  other d e hkind := by
    obtain ⟨haction, hname⟩ := Bool.or_eq_false_iff.mp hkind
    have hname : e.name ≠ "library" := by simpa [isNamed] using hname
    simp [apply_eq, newActions, haction, hname]
  same d d' e hview := by
    obtain ⟨hactions, hlibraries⟩ := Prod.mk.inj hview
    simp [apply_eq, hactions, hlibraries]

/-- Keys follow only together with whether they have been given. -/
theorem follows_keys (rules : TagRules) :
    Follows rules (isNamed "key") fun d => (d.keysGiven, d.keys) where
  other d e hkind := by
    have hname : e.name ≠ "key" := by simpa [isNamed] using hkind
    simp [apply_eq, hname]
  same d d' e hview := by
    obtain ⟨hgiven, hkeys⟩ := Prod.mk.inj hview
    simp [apply_eq, hgiven, hkeys]

/-- A field that the tags of one name change by a function of it. -/
theorem Follows.of_name {name : String} (change : α → TagEntry → α)
    (h : ∀ d e, view (apply rules d e) = if e.name = name then change (view d) e else view d) :
    Follows rules (isNamed name) view :=
  .of_step change fun d e => by simp [h, isNamed]

theorem follows_testValue (rules : TagRules) : Follows rules (isNamed "test") testValue :=
  .of_name (fun _ e => e.flat) fun d e => by rw [apply_eq]

theorem follows_bugs (rules : TagRules) : Follows rules (isNamed "bug") bugs :=
  .of_name (fun bugs e => bugs ++ newBugs rules e) fun d e => by rw [apply_eq]

theorem follows_modules (rules : TagRules) : Follows rules (isNamed "modules") modules :=
  .of_name addModules fun d e => by rw [apply_eq]

theorem follows_requires (rules : TagRules) : Follows rules (isNamed "requires") requires :=
  .of_name (fun requires e => requires ++ newRequires rules e) fun d e => by rw [apply_eq]

theorem follows_enablePreview (rules : TagRules) :
    Follows rules (isNamed "enablePreview") enablePreview :=
  .of_name switchPreview fun d e => by rw [apply_eq]

theorem follows_summary (rules : TagRules) : Follows rules (isNamed "summary") summary :=
  .of_name addText fun d e => by rw [apply_eq]

theorem follows_author (rules : TagRules) : Follows rules (isNamed "author") author :=
  .of_name addText fun d e => by rw [apply_eq]

theorem follows_comment (rules : TagRules) : Follows rules (isNamed "comment") comment :=
  .of_name addText fun d e => by rw [apply_eq]

/-! ### The error -/

/-- The errors that tags raise behind other ones, in order. -/
def errorsBehind (rules : TagRules) (before : List TagEntry) : List TagEntry → List TagError
  | [] => []
  | e :: rest =>
    raised rules (before.any (isNamed "key")) (!(before.flatMap newActions).isEmpty) e
      ++ errorsBehind rules (before ++ [e]) rest

theorem ofEntries_append_singleton (rules : TagRules) (before : List TagEntry) (e : TagEntry) :
    ofEntries rules (before ++ [e]) = apply rules (ofEntries rules before) e := by
  rw [ofEntries, ofEntries, List.foldl_append, List.foldl_cons, List.foldl_nil]

theorem actions_foldl (rules : TagRules) (entries : List TagEntry) (d : Declaration) :
    (entries.foldl (apply rules) d).actions = d.actions ++ entries.flatMap newActions := by
  induction entries generalizing d with
  | nil => simp
  | cons e rest ih => rw [List.foldl_cons, ih, apply_eq, List.append_assoc, ← List.flatMap_cons]

theorem actions_ofEntries (rules : TagRules) (entries : List TagEntry) :
    (ofEntries rules entries).actions = entries.flatMap newActions := by
  rw [ofEntries, actions_foldl, empty, List.nil_append]

theorem keysGiven_foldl (rules : TagRules) (entries : List TagEntry) (d : Declaration) :
    (entries.foldl (apply rules) d).keysGiven
      = (d.keysGiven || (rules.keys.isSome && entries.any (isNamed "key"))) := by
  induction entries generalizing d with
  | nil => simp
  | cons e rest ih =>
      rw [List.foldl_cons, ih, apply_eq, List.any_cons, Bool.and_or_distrib_left, Bool.or_assoc]
      rfl

/-- Where no keys are valid it does not matter whether some have been given. -/
theorem raised_given (rules : TagRules) (given acted : Bool) (e : TagEntry) :
    raised rules (rules.keys.isSome && given) acted e = raised rules given acted e := by
  cases hkeys : rules.keys with
  | none => simp only [raised, keyErrors, hkeys]
  | some valid => rw [Option.isSome_some, Bool.true_and]

/-- What a tag raises behind other ones is recorded if nothing has been recorded for those. -/
theorem error_ofEntries_append_singleton (rules : TagRules) (before : List TagEntry)
    (e : TagEntry) :
    (ofEntries rules (before ++ [e])).error
      = (ofEntries rules before).error.or (raised rules (before.any (isNamed "key"))
          (!(before.flatMap newActions).isEmpty) e).head? := by
  have hgiven : (ofEntries rules before).keysGiven
      = (rules.keys.isSome && before.any (isNamed "key")) := by
    rw [ofEntries, keysGiven_foldl, empty, Bool.false_or]
  rw [ofEntries_append_singleton, apply_eq, actions_ofEntries, hgiven, raised_given]

theorem error_ofEntries_append (rules : TagRules) (before rest : List TagEntry) :
    (ofEntries rules (before ++ rest)).error
      = (ofEntries rules before).error.or (errorsBehind rules before rest).head? := by
  induction rest generalizing before with
  | nil => simp [errorsBehind]
  | cons e rest ih =>
      rw [List.append_cons, ih, error_ofEntries_append_singleton, errorsBehind, List.head?_append,
        Option.or_assoc]

/-! ### Independence -/

/-- Two lists of tags give the same field wherever they have the same tags for it, and the same
libraries wherever they have the same tags for libraries and actions. The error is the first one
that a tag raises. -/
theorem ofEntries_independent (rules : TagRules) (s t : List TagEntry) :
    let d := ofEntries rules s
    let d' := ofEntries rules t
    (Agree isAction s t → d.actions = d'.actions) ∧
      (Agree (fun e => isAction e || isNamed "library" e) s t → d.libraries = d'.libraries) ∧
      (Agree (isNamed "test") s t → d.testValue = d'.testValue) ∧
      (Agree (isNamed "bug") s t → d.bugs = d'.bugs) ∧
      (Agree (isNamed "key") s t → d.keys = d'.keys) ∧
      (Agree (isNamed "modules") s t → d.modules = d'.modules) ∧
      (Agree (isNamed "requires") s t → d.requires = d'.requires) ∧
      (Agree (isNamed "enablePreview") s t → d.enablePreview = d'.enablePreview) ∧
      (Agree (isNamed "summary") s t → d.summary = d'.summary) ∧
      (Agree (isNamed "author") s t → d.author = d'.author) ∧
      (Agree (isNamed "comment") s t → d.comment = d'.comment) ∧
      d.error = (errorsBehind rules [] s).head? := by
  refine ⟨(follows_actions rules).view_eq,
    fun h => congrArg Prod.snd ((follows_libraries rules).view_eq h),
    (follows_testValue rules).view_eq, (follows_bugs rules).view_eq,
    fun h => congrArg Prod.snd ((follows_keys rules).view_eq h),
    (follows_modules rules).view_eq, (follows_requires rules).view_eq,
    (follows_enablePreview rules).view_eq, (follows_summary rules).view_eq,
    (follows_author rules).view_eq, (follows_comment rules).view_eq, ?_⟩
  exact error_ofEntries_append rules [] s

/-- The same tags in another order, and with an unknown one between them. -/
theorem ofEntries_independent_shuffled :
    let rules : TagRules := ⟨KnownNames.builtin, true, some (NameSet.ofNames ["stress"])⟩
    let s : List TagEntry := [⟨"test", "id=a", 0⟩, ⟨"bug", "1234567 12", 1⟩, ⟨"key", "stress", 2⟩,
      ⟨"modules", "java.base", 3⟩, ⟨"library", "/lib", 4⟩, ⟨"requires", "vm.debug", 5⟩,
      ⟨"enablePreview", "", 6⟩, ⟨"summary", "Starts.", 7⟩, ⟨"author", "a", 8⟩, ⟨"comment", "c", 9⟩,
      ⟨"run", "main T", 10⟩, ⟨"build", "", 11⟩]
    let t : List TagEntry := [⟨"comment", "c", 0⟩, ⟨"library", "/lib", 1⟩, ⟨"keys", "stress", 2⟩,
      ⟨"run", "main T", 3⟩, ⟨"build", "", 4⟩, ⟨"bug", "1234567 12", 5⟩, ⟨"test", "id=a", 6⟩,
      ⟨"summary", "Starts.", 7⟩, ⟨"modules", "java.base", 8⟩, ⟨"enablePreview", "", 9⟩,
      ⟨"key", "stress", 10⟩, ⟨"requires", "vm.debug", 11⟩, ⟨"author", "a", 12⟩]
    let d := ofEntries rules s
    let d' := ofEntries rules t
    (d.actions = d'.actions ∧ d.libraries = d'.libraries ∧ d.testValue = d'.testValue ∧
      d.bugs = d'.bugs ∧ d.keys = d'.keys ∧ d.modules = d'.modules ∧ d.requires = d'.requires ∧
      d.enablePreview = d'.enablePreview ∧ d.summary = d'.summary ∧ d.author = d'.author ∧
      d.comment = d'.comment) ∧
      d.error = some (.invalidBug "12") ∧ d'.error = some (.unknownTag "keys") := by
  intro rules s t d d'
  obtain ⟨hactions, hlibraries, htest, hbugs, hkeys, hmodules, hrequires, hpreview, hsummary,
    hauthor, hcomment, herror⟩ := ofEntries_independent rules s t
  obtain ⟨-, -, -, -, -, -, -, -, -, -, -, herror'⟩ := ofEntries_independent rules t s
  refine ⟨⟨hactions ?_, hlibraries ?_, htest ?_, hbugs ?_, hkeys ?_, hmodules ?_, hrequires ?_,
    hpreview ?_, hsummary ?_, hauthor ?_, hcomment ?_⟩, herror.trans ?_, herror'.trans ?_⟩
  all_goals decide +kernel

/-- A library in front of all actions is added, and one behind an action is not. -/
example :
    (ofEntries .default [⟨"library", "/lib", 0⟩, ⟨"run", "main T", 1⟩]).libraries = ["/lib"] ∧
      (ofEntries .default [⟨"run", "main T", 0⟩, ⟨"library", "/lib", 1⟩]).libraries = [] := by
  decide +kernel

end Declaration

end TestSelection
