import TestSelection.Proofs.Except
import TestSelection.Proofs.Suite.Inheritance
import TestSelection.Suite.Validity

/-!
What is true of a valid configuration. A check that goes through says so of every item that it has
looked at, and what holds for a directory is put together from such items only.
-/

namespace TestSelection

/-! ### Items of lists -/

section

variable {α : Type} {items : List α}

theorem checkAll_eq_ok {check : Nat → α → Except ConfigProblem Unit} :
    checkAll items check = .ok () ↔
      ∀ (index : Nat) item, items[index]? = some item → check index item = .ok () := by
  rw [checkAll, forM_eq_ok]
  constructor
  · intro h index item hitem
    exact h (item, index) (List.mk_mem_zipIdx_iff_getElem?.mpr hitem)
  · rintro h ⟨item, index⟩ hitem
    exact h index item (List.mk_mem_zipIdx_iff_getElem?.mp hitem)

theorem checkAll_const_eq_ok {check : α → Except ConfigProblem Unit} :
    (checkAll items fun _ item => check item) = .ok () ↔ ∀ item ∈ items, check item = .ok () := by
  rw [checkAll_eq_ok]
  constructor
  · intro h item hitem
    obtain ⟨index, hindex⟩ := List.mem_iff_getElem?.mp hitem
    exact h index item hindex
  · exact fun h index item hindex => h item (List.mem_of_getElem? hindex)

theorem checkEach_eq_ok {p : α → Bool} {problem : Nat → α → ConfigProblem} :
    (checkAll items fun index item => if p item then .ok () else .error (problem index item))
      = .ok () ↔ ∀ item ∈ items, p item = true := by
  rw [checkAll_eq_ok]
  constructor
  · intro h item hitem
    obtain ⟨index, hindex⟩ := List.mem_iff_getElem?.mp hitem
    have hcheck := h index item hindex
    split_ifs at hcheck with hvalid
    exact hvalid
  · intro h index item hindex
    rw [if_pos (h item (List.mem_of_getElem? hindex))]

end

theorem checkModules_eq_ok {field : String} {modules : List String} :
    checkModules field modules = .ok () ↔ ∀ entry ∈ modules, isModuleEntry entry = true :=
  checkEach_eq_ok

/-! ### Fields -/

theorem checkRelativeDir_eq_ok {field dir : String} :
    checkRelativeDir field dir = .ok () ↔ checkPath field dir = .ok () ∧
      .root ∉ (⟨Text.trim dir⟩ : Path).parts ∧ .up ∉ (⟨Text.trim dir⟩ : Path).parts := by
  have hnone (parts : List PathPart) :
      (parts.find? fun part => part == .root || part == .up) = none
        ↔ .root ∉ parts ∧ .up ∉ parts := by
    simp only [List.find?_eq_none, Bool.or_eq_true, beq_iff_eq, not_or]
    exact ⟨fun h => ⟨fun hroot => (h _ hroot).1 rfl, fun hup => (h _ hup).2 rfl⟩,
      fun h _ hpart => ⟨fun heq => h.1 (heq ▸ hpart), fun heq => h.2 (heq ▸ hpart)⟩⟩
  rw [checkRelativeDir, check_bind_eq_ok, ← hnone]
  refine and_congr_right fun _ => ?_
  generalize (⟨Text.trim dir⟩ : Path).parts.find? _ = found
  rcases found with _ | part
  · simp [pure, Except.pure]
  · cases part <;> simp [throw, throwThe, MonadExceptOf.throw]

theorem DirectoryTable.check_eq_ok {field : String} {t : DirectoryTable} :
    t.check field = .ok () ↔ (t.testng && t.junit) = false ∧
      (∀ keys, t.keys = some keys → checkKeys (field ++ ".keys") keys = .ok ()) ∧
      ∀ modules, t.modules = some modules → ∀ entry ∈ modules, isModuleEntry entry = true := by
  unfold check
  dsimp only
  cases t.testng && t.junit <;> cases t.keys <;> cases t.modules <;>
    simp [check_bind_eq_ok, checkModules_eq_ok, pure, Except.pure, throw, throwThe,
      MonadExceptOf.throw]

namespace SuiteConfig

variable {c : SuiteConfig} {dir : String} {table : DirectoryTable}

theorem checkSuite_eq_ok :
    c.checkSuite = .ok () ↔ (∀ keys, c.keys = some keys → checkKeys "keys" keys = .ok ()) ∧
      (∀ name ∈ c.requiresProperties, isPropertyName name = true) ∧
      checkAll c.groups checkGroup = .ok () ∧
      (∀ entry ∈ c.modules, isModuleEntry entry = true) ∧
      (∀ extension ∈ c.extensions.names, isExtension extension = true) ∧
      ∀ ignored, c.ignoredDirectories = some ignored →
        ∀ name ∈ ignored, isDirectoryName name = true := by
  unfold checkSuite
  dsimp only
  cases c.keys <;> cases c.ignoredDirectories <;>
    simp [check_bind_eq_ok, checkEach_eq_ok, checkModules_eq_ok, pure, Except.pure]

theorem checkDirectories_eq_ok :
    c.checkDirectories = .ok () ↔
      (checkAll c.testngDirs fun index dir =>
        checkRelativeDir (itemField "testng_dirs" index) dir) = .ok () ∧
      (checkAll c.junitDirs fun index dir => do
        checkRelativeDir (itemField "junit_dirs" index) dir
        if c.testngDirs.any (normalizeDir · == normalizeDir dir) then
          throw (.listedTwice index dir)) = .ok () ∧
      ∀ dir table, (dir, table) ∈ c.directories.entries →
        checkRelativeDir ("directories.\"" ++ dir ++ "\"") dir = .ok () ∧
          table.check ("directories.\"" ++ dir ++ "\"") = .ok () := by
  unfold checkDirectories
  rw [check_bind_eq_ok, check_bind_eq_ok, checkAll_const_eq_ok]
  simp only [check_bind_eq_ok, Prod.forall]

/-! ### Modules -/

theorem isModuleEntry_of_check (h : c.check = .ok ()) :
    (∀ entry ∈ c.modules, isModuleEntry entry = true) ∧
      ∀ dir table modules, (dir, table) ∈ c.directories.entries → table.modules = some modules →
        ∀ entry ∈ modules, isModuleEntry entry = true := by
  obtain ⟨hsuite, hdirectories⟩ := check_bind_eq_ok.mp h
  obtain ⟨-, -, -, hmodules, -⟩ := checkSuite_eq_ok.mp hsuite
  refine ⟨hmodules, fun dir table modules hmem hsome => ?_⟩
  obtain ⟨-, htable⟩ := (checkDirectories_eq_ok.mp hdirectories).2.2 dir table hmem
  exact (DirectoryTable.check_eq_ok.mp htable).2.2 modules hsome

/-- The modules of a directory are those of the suite or of one of the tables. -/
theorem modules_propertiesFor_mem (c : SuiteConfig) (dir : String) :
    (c.propertiesFor dir).modules = c.modules ∨
      ∃ name table, (name, table) ∈ c.directories.entries ∧
        table.modules = some (c.propertiesFor dir).modules := by
  rw [propertiesFor]
  refine List.foldlRecOn (motive := fun d : DirectoryProperties => d.modules = c.modules ∨
    ∃ name table, (name, table) ∈ c.directories.entries ∧ table.modules = some d.modules) _ _
    (Or.inl (DirectoryProperties.modules_root c)) fun d hd dir _ => ?_
  rw [DirectoryProperties.modules_child]
  cases hmodules : (c.tableFor? (normalizeDir dir)).bind (·.modules) with
  | none => exact hd
  | some modules =>
      obtain ⟨table, htable, hset⟩ := Option.bind_eq_some_iff.mp hmodules
      obtain ⟨⟨name, _⟩, hfind, rfl⟩ := Option.map_eq_some_iff.mp htable
      exact Or.inr ⟨name, _, List.mem_of_find?_eq_some hfind, hset⟩

/-- In a valid configuration the modules of every directory are module entries. -/
theorem isModuleEntry_of_mem_modules (h : c.check = .ok ()) {entry : String}
    (hentry : entry ∈ (c.propertiesFor dir).modules) : isModuleEntry entry = true := by
  obtain ⟨hsuite, htables⟩ := isModuleEntry_of_check h
  rcases modules_propertiesFor_mem c dir with heq | ⟨name, table, hmem, hset⟩
  · exact hsuite entry (heq ▸ hentry)
  · exact htables name table _ hmem hset entry hentry

end SuiteConfig

end TestSelection
