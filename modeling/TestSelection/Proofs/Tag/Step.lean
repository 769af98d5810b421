import TestSelection.Proofs.Cuts
import TestSelection.Tag.Description

/-!
What one tag does to a declaration, field by field. A tag that names an action adds an action, and
any other tag that is known adds to the field that is meant for it. What a field becomes depends on
the field alone, with two exceptions: libraries are added only where there are no actions yet, and
keys only where no keys have been given. The errors that a tag raises depend on these two conditions
and on nothing else; the first of them is recorded if there was none before.
-/

namespace TestSelection

/-- A name without options is the whole name. -/
theorem TagEntry.baseName_eq_name {e : TagEntry} (h : e.hasOptions = false) :
    e.baseName = e.name := by
  have hslash : '/' ∉ e.name.toList := by simpa [hasOptions, Text.has] using h
  rw [baseName, Chars.takeWhile_of_notMem hslash, String.ofList_toList]

namespace Declaration

variable {rules : TagRules} {d : Declaration} {e : TagEntry}

/-! ### What a tag adds -/

def isAction (e : TagEntry) : Bool := actionTags.contains e.baseName

def newActions (e : TagEntry) : List Action :=
  if isAction e then (actionOf e).toOption.toList else []

/-- Whether a token is left out of a list of bugs. -/
def isBadBug (rules : TagRules) (token : String) : Bool := rules.bugValidation && !isBugId token

def newBugs (rules : TagRules) (e : TagEntry) : List String :=
  (bugTokens e.value).filter (!isBadBug rules ·)

/-- Whether a token stands for a valid key. -/
def isValidKey (valid : NameSet) (token : String) : Bool :=
  valid.contains (SuiteConfig.normalizeKey token)

def newKeys (rules : TagRules) (e : TagEntry) : List String :=
  match rules.keys with
  | some valid => ((Text.words e.value).filter (isValidKey valid)).map SuiteConfig.normalizeKey
  | none => []

/-- The modules with those of a list, all of them or none. -/
def addModules (modules : Option (List ModuleSpec)) (e : TagEntry) : Option (List ModuleSpec) :=
  match (Text.words e.value).mapM moduleOfToken with
  | .ok added => some (modules.getD [] ++ added)
  | .error _ => modules

def newRequires (rules : TagRules) (e : TagEntry) : List String :=
  if checkRequires rules.knownNames e.flat = .ok () then [e.flat] else []

/-- Preview features as a tag leaves them. -/
def switchPreview (preview : Option Bool) (e : TagEntry) : Option Bool :=
  match e.flat with
  | "" | "true" => some true
  | "false" => some false
  | _ => preview

/-! ### What a tag raises -/

def actionErrors (e : TagEntry) : List TagError :=
  match actionOf e with
  | .error error => [error]
  | .ok action => ((badTimeout? action).map TagError.invalidTimeout).toList

def bugErrors (rules : TagRules) (e : TagEntry) : List TagError :=
  if bugTokens e.value = [] then [.emptyValue "bug"]
  else ((bugTokens e.value).filter (isBadBug rules)).map .invalidBug

/-- The errors of a list of keys; `given` if it is not the first one. -/
def keyErrors (rules : TagRules) (given : Bool) (e : TagEntry) : List TagError :=
  match rules.keys with
  | some valid =>
    if given then [.duplicateTag "key"]
    else ((Text.words e.value).filter (!isValidKey valid ·)).map .invalidKey
  | none => [.unknownTag "key"]

/-- The error of a list of modules: that of the first module that is wrong. -/
def moduleErrors (e : TagEntry) : List TagError :=
  match (Text.words e.value).mapM moduleOfToken with
  | .ok _ => []
  | .error error => [error]

/-- The error of a list of libraries; `acted` if there are actions already. -/
def libraryErrors (acted : Bool) (e : TagEntry) : List TagError :=
  if acted then [.libraryAfterAction]
  else if Text.words e.value = [] then [.emptyValue "library"]
  else []

def requiresErrors (rules : TagRules) (e : TagEntry) : List TagError :=
  match checkRequires rules.knownNames e.flat with
  | .ok () => []
  | .error error => [.invalidRequires error]

def previewErrors (e : TagEntry) : List TagError :=
  if e.flat ∈ ["", "true", "false"] then [] else [.invalidEnablePreview e.flat]

/-- The errors that a tag raises, in order. -/
def raised (rules : TagRules) (given acted : Bool) (e : TagEntry) : List TagError :=
  if isAction e then actionErrors e
  else if e.hasOptions then [.unknownTag e.name]
  else
    match e.name with
    | "test" | "summary" | "author" | "comment" => []
    | "bug" => bugErrors rules e
    | "key" => keyErrors rules given e
    | "modules" => moduleErrors e
    | "library" => libraryErrors acted e
    | "requires" => requiresErrors rules e
    | "enablePreview" => previewErrors e
    | _ => [.unknownTag e.name]

/-! ### One tag of each kind -/

theorem applyAction_eq (h : isAction e = true) : d.applyAction e =
    { d with
      actions := d.actions ++ newActions e
      error := d.error.or (actionErrors e).head? } := by
  rw [applyAction, newActions, if_pos h, actionErrors]
  cases actionOf e with
  | error error => simp [record, Except.toOption]
  | ok action => cases hlimit : badTimeout? action <;> simp [record, hlimit, Except.toOption]

theorem foldl_bugs_eq (tokens : List String) (d : Declaration) :
    tokens.foldl (fun d token =>
        if isBadBug rules token then d.record (.invalidBug token)
        else { d with bugs := d.bugs ++ [token] }) d
      = { d with
          bugs := d.bugs ++ tokens.filter (!isBadBug rules ·)
          error := d.error.or ((tokens.filter (isBadBug rules)).map TagError.invalidBug).head? } := by
  induction tokens generalizing d with
  | nil => simp
  | cons token tokens ih =>
      rw [List.foldl_cons, ih]
      by_cases hbad : isBadBug rules token = true <;> simp [hbad, record]

theorem applyBug_eq : d.applyBug rules e =
    { d with
      bugs := d.bugs ++ newBugs rules e
      error := d.error.or (bugErrors rules e).head? } := by
  rw [applyBug, bugErrors, newBugs]
  split
  · rename_i hnone
    simp [hnone, record]
  · exact foldl_bugs_eq _ d

theorem foldl_keys_eq {valid : NameSet} (tokens : List String) (d : Declaration) :
    tokens.foldl (fun d token =>
        if isValidKey valid token then { d with keys := d.keys ++ [SuiteConfig.normalizeKey token] }
        else d.record (.invalidKey token)) d
      = { d with
          keys := d.keys ++ (tokens.filter (isValidKey valid)).map SuiteConfig.normalizeKey
          error := d.error.or
            ((tokens.filter (!isValidKey valid ·)).map TagError.invalidKey).head? } := by
  induction tokens generalizing d with
  | nil => simp
  | cons token tokens ih =>
      rw [List.foldl_cons, ih]
      by_cases hvalid : isValidKey valid token = true <;> simp [hvalid, record]

theorem applyKey_eq {valid : NameSet} (h : rules.keys = some valid) : d.applyKey valid e =
    { d with
      keys := if d.keysGiven = true then d.keys else d.keys ++ newKeys rules e
      keysGiven := true
      error := d.error.or (keyErrors rules d.keysGiven e).head? } := by
  rw [applyKey]
  cases hgiven : d.keysGiven with
  | true => simp [keyErrors, h, record, hgiven]
  | false =>
      simp only [keyErrors, newKeys, h, Bool.false_eq_true, if_false]
      exact foldl_keys_eq _ { d with keysGiven := true }

theorem applyModules_eq : d.applyModules e =
    { d with
      modules := addModules d.modules e
      error := d.error.or (moduleErrors e).head? } := by
  rw [applyModules, addModules, moduleErrors]
  cases (Text.words e.value).mapM moduleOfToken <;> simp [record]

theorem applyLibrary_eq : d.applyLibrary e =
    { d with
      libraries := if d.actions = [] then d.libraries ++ Text.words e.value else d.libraries
      error := d.error.or (libraryErrors (!d.actions.isEmpty) e).head? } := by
  rw [applyLibrary, libraryErrors]
  by_cases hactions : d.actions = []
  · cases hwords : Text.words e.value <;> simp [hactions, record]
  · simp [hactions, record]

theorem applyRequires_eq : d.applyRequires rules e =
    { d with
      requires := d.requires ++ newRequires rules e
      error := d.error.or (requiresErrors rules e).head? } := by
  rw [applyRequires, newRequires, requiresErrors]
  cases checkRequires rules.knownNames e.flat <;> simp [record]

theorem applyEnablePreview_eq : d.applyEnablePreview e =
    { d with
      enablePreview := switchPreview d.enablePreview e
      error := d.error.or (previewErrors e).head? } := by
  rw [applyEnablePreview, switchPreview, previewErrors]
  split <;> simp_all [record]

/-! ### Any tag -/

/-- The names of the tags that are known and meant for no action. -/
def plainTags : List String :=
  ["test", "bug", "key", "modules", "library", "requires", "enablePreview", "summary", "author",
    "comment"]

/-- A tag for an action or with options has none of these names. -/
theorem name_notMem_plainTags (h : isAction e = true ∨ e.hasOptions = true) :
    e.name ∉ plainTags := by
  intro hname
  have hplain : ∀ n ∈ plainTags, '/' ∉ n.toList ∧ n ∉ actionTags := by decide
  obtain ⟨hslash, htag⟩ := hplain _ hname
  have hoptions : e.hasOptions = false := by simpa [TagEntry.hasOptions, Text.has] using hslash
  rcases h with haction | h
  · rw [isAction, TagEntry.baseName_eq_name hoptions] at haction
    exact htag (by simpa using haction)
  · exact absurd h (by simp [hoptions])

/-- What a tag makes of each field. -/
theorem apply_eq (rules : TagRules) (d : Declaration) (e : TagEntry) :
    apply rules d e =
      { testValue := if e.name = "test" then e.flat else d.testValue
        actions := d.actions ++ newActions e
        bugs := if e.name = "bug" then d.bugs ++ newBugs rules e else d.bugs
        keys := if e.name = "key" ∧ d.keysGiven = false then d.keys ++ newKeys rules e else d.keys
        libraries := if e.name = "library" ∧ d.actions = [] then d.libraries ++ Text.words e.value
          else d.libraries
        modules := if e.name = "modules" then addModules d.modules e else d.modules
        requires := if e.name = "requires" then d.requires ++ newRequires rules e else d.requires
        enablePreview := if e.name = "enablePreview" then switchPreview d.enablePreview e
          else d.enablePreview
        summary := if e.name = "summary" then addText d.summary e else d.summary
        author := if e.name = "author" then addText d.author e else d.author
        comment := if e.name = "comment" then addText d.comment e else d.comment
        error := d.error.or (raised rules d.keysGiven (!d.actions.isEmpty) e).head?
        keysGiven := d.keysGiven || (rules.keys.isSome && e.name == "key") } := by
  by_cases haction : isAction e = true
  · have happly : apply rules d e = d.applyAction e := if_pos haction
    have hplain := name_notMem_plainTags (Or.inl haction)
    simp only [plainTags, List.mem_cons, List.not_mem_nil, or_false, not_or] at hplain
    simp [happly, applyAction_eq haction, raised, haction, hplain]
  have hactions : newActions e = [] := if_neg haction
  by_cases hoptions : e.hasOptions = true
  · have happly : apply rules d e = d.record (.unknownTag e.name) :=
      (if_neg haction).trans (if_pos hoptions)
    have hplain := name_notMem_plainTags (Or.inr hoptions)
    simp only [plainTags, List.mem_cons, List.not_mem_nil, or_false, not_or] at hplain
    simp [happly, record, raised, haction, hoptions, hplain, hactions]
  have hbase : e.baseName = e.name := TagEntry.baseName_eq_name (Bool.of_not_eq_true hoptions)
  rw [raised, if_neg haction, if_neg hoptions]
  rw [isAction] at haction
  rw [apply, if_neg haction, if_neg hoptions, hbase]
  split <;> rename_i hname
  · simp [hname, hactions]
  · simp [hname, hactions, applyBug_eq]
  · cases hkeys : rules.keys with
    | none => simp [hname, hactions, record, keyErrors, newKeys, hkeys]
    | some valid => cases hgiven : d.keysGiven <;> simp [hname, hactions, applyKey_eq hkeys, hgiven]
  · simp [hname, hactions, applyModules_eq]
  · simp [hname, hactions, applyLibrary_eq]
  · simp [hname, hactions, applyRequires_eq]
  · simp [hname, hactions, applyEnablePreview_eq]
  · simp [hname, hactions]
  · simp [hname, hactions]
  · simp [hname, hactions]
  · simp_all [record]

/-! ### The description -/

/-- A test has the actions of its declaration, or else the one that follows from its file. -/
theorem run_describe (d : Declaration) (file : Path) (relativePath : String) (line : Nat)
    (id : Option String) (dir : DirectoryProperties) :
    (d.describe file relativePath line id dir).run
      = if d.actions = [] then
          (defaultAction? (file.fileName?.getD "") relativePath dir).toList
        else d.actions := by
  have hsource : (Description.new file relativePath line id).source = file.fileName?.getD "" := rfl
  rw [describe]
  simp only [hsource]
  by_cases h : d.actions = []
  · cases defaultAction? (file.fileName?.getD "") relativePath dir <;> simp [record, h]
  · simp [h]

end Declaration

end TestSelection
