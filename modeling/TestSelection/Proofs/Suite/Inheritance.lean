import Mathlib.Data.List.Infix
import TestSelection.Proofs.Suite.DirectoryName
import TestSelection.Proofs.Table

/-!
What a directory inherits. The properties of a directory come from those of its parent by one step,
and each of them has its own rule for the step: a table replaces modules and preview, narrows the
keys, and selects a runner if no directory above has done so. Over the whole way from the suite root
this makes the nearest table count for modules and preview, all tables for the keys, and the first
directory for the runner.
-/

namespace TestSelection

/-! ### Settings along a way -/

section Way

variable {N α : Type} {setting : List N → Option α} {default value : α} {names p q : List N} {n : N}

/-- The value is that of the longest beginning that has one, or else the default. -/
def NearestOr (setting : List N → Option α) (default : α) (names : List N) (value : α) : Prop :=
  (∃ p, p <+: names ∧ setting p = some value ∧
      ∀ q, q <+: names → p.length < q.length → setting q = none) ∨
    ((∀ p, p <+: names → setting p = none) ∧ value = default)

/-- The shortest beginning that has a value, and its value. -/
structure FirstSet (setting : List N → Option α) (names p : List N) (value : α) : Prop where
  isPrefix : p <+: names
  value_eq : setting p = some value
  shortest : ∀ q, q <+: names → q.length < p.length → setting q = none

theorem nearestOr_nil (h : setting [] = none) : NearestOr setting default [] default := by
  refine Or.inr ⟨fun p hp => ?_, rfl⟩
  rw [List.prefix_nil.mp hp]
  exact h

/-- One name further the value is replaced if there is one. -/
theorem NearestOr.concat (h : NearestOr setting default names value) (n : N) :
    NearestOr setting default (names ++ [n]) ((setting (names ++ [n])).getD value) := by
  cases hlast : setting (names ++ [n]) with
  | some last =>
      refine Or.inl ⟨names ++ [n], List.prefix_rfl, hlast, fun q hq hlt => ?_⟩
      have hle := hq.length_le
      omega
  | none =>
      rcases h with ⟨p, hp, hvalue, hfurther⟩ | ⟨hnone, rfl⟩
      · refine Or.inl ⟨p, hp.trans (List.prefix_append _ _), hvalue, fun q hq hlt => ?_⟩
        rcases List.prefix_concat_iff.mp hq with rfl | hq
        · exact hlast
        · exact hfurther q hq hlt
      · refine Or.inr ⟨fun p hp => ?_, rfl⟩
        rcases List.prefix_concat_iff.mp hp with rfl | hp
        · exact hlast
        · exact hnone p hp

theorem FirstSet.unique {other : α} (h : FirstSet setting names p value)
    (h' : FirstSet setting names q other) : p = q ∧ value = other := by
  have hle {a b : List N} {v w : α} (ha : FirstSet setting names a v)
      (hb : FirstSet setting names b w) : a.length ≤ b.length := by
    by_contra hlt
    have hnone := ha.shortest b hb.isPrefix (by omega)
    rw [hb.value_eq] at hnone
    exact nomatch hnone
  have hlength : p.length = q.length := Nat.le_antisymm (hle h h') (hle h' h)
  obtain rfl : p = q :=
    (List.prefix_of_prefix_length_le h.isPrefix h'.isPrefix hlength.le).eq_of_length hlength
  exact ⟨rfl, Option.some.inj (h.value_eq.symm.trans h'.value_eq)⟩

/-- Further names do not change what is first. -/
theorem FirstSet.append (h : FirstSet setting names p value) (more : List N) :
    FirstSet setting (names ++ more) p value := by
  refine ⟨h.isPrefix.trans (List.prefix_append _ _), h.value_eq, fun q hq hlt => ?_⟩
  have hle := h.isPrefix.length_le
  have hqnames : q <+: names :=
    List.prefix_of_prefix_length_le hq (List.prefix_append names more) (by omega)
  exact h.shortest q hqnames hlt

theorem firstSet_concat (h : ∀ q, q <+: names → setting q = none)
    (hvalue : setting (names ++ [n]) = some value) :
    FirstSet setting (names ++ [n]) (names ++ [n]) value := by
  refine ⟨List.prefix_rfl, hvalue, fun q hq hlt => ?_⟩
  rcases List.prefix_concat_iff.mp hq with rfl | hq
  · omega
  · exact h q hq

end Way

/-- A way to run tests that a directory can select. -/
inductive Runner
  | testng | junit
deriving DecidableEq

/-- The runner that two marks stand for; the first one counts before the second. -/
def Runner.ofMarks (testng junit : Bool) : Option Runner :=
  if testng then some .testng else if junit then some .junit else none

/-- The runner that the lists of the suite select for a directory. -/
def SuiteConfig.listedRunner? (c : SuiteConfig) (dir : String) : Option Runner :=
  Runner.ofMarks (c.testngDirs.any (normalizeDir · == dir))
    (c.junitDirs.any (normalizeDir · == dir))

/-- The runner that a table selects. -/
def DirectoryTable.runner? (table : DirectoryTable) : Option Runner :=
  Runner.ofMarks table.testng table.junit

namespace DirectoryProperties

variable {d other : DirectoryProperties} {selection : Option (Runner × String)}

/-- The directory that has selected a runner. -/
def rootOf (d : DirectoryProperties) : Runner → Option String
  | .testng => d.testngRoot
  | .junit => d.junitRoot

/-- No runner is selected but the given one, if any, by its directory. -/
def Selects (d : DirectoryProperties) (selection : Option (Runner × String)) : Prop :=
  ∀ runner, d.rootOf runner
    = selection.bind fun s => if s.1 = runner then some s.2 else none

/-! ### One step -/

@[simp] theorem dir_select (d : DirectoryProperties) (testng junit : Bool) :
    (d.select testng junit).dir = d.dir := by
  unfold select
  split_ifs <;> rfl

@[simp] theorem modules_select (d : DirectoryProperties) (testng junit : Bool) :
    (d.select testng junit).modules = d.modules := by
  unfold select
  split_ifs <;> rfl

@[simp] theorem enablePreview_select (d : DirectoryProperties) (testng junit : Bool) :
    (d.select testng junit).enablePreview = d.enablePreview := by
  unfold select
  split_ifs <;> rfl

@[simp] theorem keys_select (d : DirectoryProperties) (testng junit : Bool) :
    (d.select testng junit).keys = d.keys := by
  unfold select
  split_ifs <;> rfl

theorem Selects.congr (h : d.Selects selection) (htestng : other.testngRoot = d.testngRoot)
    (hjunit : other.junitRoot = d.junitRoot) : other.Selects selection := by
  intro runner
  cases runner with
  | testng => exact htestng.trans (h .testng)
  | junit => exact hjunit.trans (h .junit)

/-- What is selected stays so. -/
theorem Selects.select (h : d.Selects selection) (testng junit : Bool) :
    (d.select testng junit).Selects
      (selection.or ((Runner.ofMarks testng junit).map fun runner => (runner, d.dir))) := by
  have htestng := h .testng
  have hjunit := h .junit
  unfold rootOf at htestng hjunit
  intro runner
  cases selection with
  | some s =>
      obtain ⟨selected, root⟩ := s
      have hrunner : d.hasRunner = true := by
        unfold hasRunner
        cases selected <;> simp_all
      rw [DirectoryProperties.select, if_pos hrunner]
      exact h runner
  | none =>
      have hrunner : d.hasRunner = false := by
        unfold hasRunner
        simp_all
      cases testng <;> cases junit <;> cases runner <;>
        simp_all [DirectoryProperties.select, Runner.ofMarks, rootOf]

/-- The keys that remain under a table that may name some. -/
def narrowed (inherited : NameSet) : Option (List String) → NameSet
  | none => inherited
  | some keys => NameSet.ofNames
      (inherited.names.filter (NameSet.ofNames (keys.map SuiteConfig.normalizeKey)).contains)

theorem contains_narrowed (inherited : NameSet) (listed : Option (List String)) (key : String) :
    (narrowed inherited listed).contains key = true ↔
      inherited.contains key = true ∧
        ∀ keys, listed = some keys → key ∈ keys.map SuiteConfig.normalizeKey := by
  cases listed with
  | none => simp [narrowed]
  | some keys =>
      rw [narrowed, NameSet.contains_ofNames, List.mem_filter, Table.mem_names_iff,
        NameSet.contains_ofNames]
      simp

theorem dir_apply (d : DirectoryProperties) (table : DirectoryTable) :
    (d.apply table).dir = d.dir := by
  unfold apply
  dsimp only
  split <;> simp

theorem modules_apply (d : DirectoryProperties) (table : DirectoryTable) :
    (d.apply table).modules = table.modules.getD d.modules := by
  unfold apply
  dsimp only
  split <;> simp

theorem enablePreview_apply (d : DirectoryProperties) (table : DirectoryTable) :
    (d.apply table).enablePreview = table.enablePreview.getD d.enablePreview := by
  unfold apply
  dsimp only
  split <;> simp

theorem keys_apply (d : DirectoryProperties) (table : DirectoryTable) :
    (d.apply table).keys = d.keys.map (narrowed · table.keys) := by
  unfold apply
  dsimp only
  rw [keys_select]
  cases d.keys <;> cases table.keys <;> simp [narrowed]

theorem Selects.apply (h : d.Selects selection) (table : DirectoryTable) :
    (d.apply table).Selects
      (selection.or (table.runner?.map fun runner => (runner, d.dir))) := by
  have hreplaced : Selects { d with
      modules := table.modules.getD d.modules
      enablePreview := table.enablePreview.getD d.enablePreview } selection :=
    h.congr rfl rfl
  have hselect := hreplaced.select table.testng table.junit
  unfold DirectoryProperties.apply
  dsimp only
  split
  · exact hselect.congr rfl rfl
  · exact hselect

/-! ### From a parent to its child -/

/-- What holds in a child before its table is looked at. -/
def entered (d : DirectoryProperties) (suite : SuiteConfig) (dir : String) : DirectoryProperties :=
  { d with dir := SuiteConfig.normalizeDir dir }.selectByLists suite

theorem child_eq (d : DirectoryProperties) (suite : SuiteConfig) (dir : String) :
    d.child suite dir = (suite.tableFor? (SuiteConfig.normalizeDir dir)).elim
      (d.entered suite dir) (d.entered suite dir).apply := by
  have hdir : (d.entered suite dir).dir = SuiteConfig.normalizeDir dir := dir_select _ _ _
  rw [← hdir]
  unfold child
  dsimp only
  split
  all_goals
    rename_i htable
    have hentered : suite.tableFor? (d.entered suite dir).dir = _ := htable
    rw [hentered]
    rfl

theorem dir_child (d : DirectoryProperties) (suite : SuiteConfig) (dir : String) :
    (d.child suite dir).dir = SuiteConfig.normalizeDir dir := by
  rw [child_eq]
  cases suite.tableFor? (SuiteConfig.normalizeDir dir) <;>
    simp [entered, selectByLists, dir_apply]

theorem modules_child (d : DirectoryProperties) (suite : SuiteConfig) (dir : String) :
    (d.child suite dir).modules
      = ((suite.tableFor? (SuiteConfig.normalizeDir dir)).bind (·.modules)).getD d.modules := by
  rw [child_eq]
  cases suite.tableFor? (SuiteConfig.normalizeDir dir) <;>
    simp [entered, selectByLists, modules_apply]

theorem enablePreview_child (d : DirectoryProperties) (suite : SuiteConfig) (dir : String) :
    (d.child suite dir).enablePreview
      = ((suite.tableFor? (SuiteConfig.normalizeDir dir)).bind (·.enablePreview)).getD
          d.enablePreview := by
  rw [child_eq]
  cases suite.tableFor? (SuiteConfig.normalizeDir dir) <;>
    simp [entered, selectByLists, enablePreview_apply]

theorem keys_child (d : DirectoryProperties) (suite : SuiteConfig) (dir : String) :
    (d.child suite dir).keys
      = d.keys.map
          (narrowed · ((suite.tableFor? (SuiteConfig.normalizeDir dir)).bind (·.keys))) := by
  rw [child_eq]
  cases suite.tableFor? (SuiteConfig.normalizeDir dir) <;>
    simp [entered, selectByLists, keys_apply, narrowed]

theorem Selects.child (h : d.Selects selection) (suite : SuiteConfig) (dir : String) :
    (d.child suite dir).Selects (selection.or
      (((suite.listedRunner? (SuiteConfig.normalizeDir dir)).or
        ((suite.tableFor? (SuiteConfig.normalizeDir dir)).bind DirectoryTable.runner?)).map
          fun runner => (runner, SuiteConfig.normalizeDir dir))) := by
  have hmoved : Selects { d with dir := SuiteConfig.normalizeDir dir } selection := h.congr rfl rfl
  have hentered : (d.entered suite dir).Selects
      (selection.or ((suite.listedRunner? (SuiteConfig.normalizeDir dir)).map
        fun runner => (runner, SuiteConfig.normalizeDir dir))) :=
    hmoved.select _ _
  have hdir : (d.entered suite dir).dir = SuiteConfig.normalizeDir dir := dir_select _ _ _
  rw [child_eq]
  cases suite.tableFor? (SuiteConfig.normalizeDir dir) with
  | none =>
      rw [Option.bind_none, Option.or_none]
      exact hentered
  | some table =>
      have htable := hentered.apply table
      rw [hdir, Option.or_assoc, ← Option.map_or] at htable
      exact htable

/-! ### At the suite root -/

theorem dir_root (suite : SuiteConfig) : (root suite).dir = "" := dir_select _ _ _

theorem modules_root (suite : SuiteConfig) : (root suite).modules = suite.modules :=
  modules_select _ _ _

theorem enablePreview_root (suite : SuiteConfig) :
    (root suite).enablePreview = suite.enablePreview :=
  enablePreview_select _ _ _

theorem keys_root (suite : SuiteConfig) : (root suite).keys = suite.validKeys := keys_select _ _ _

theorem selects_root (suite : SuiteConfig) :
    (root suite).Selects ((suite.listedRunner? "").map fun runner => (runner, "")) := by
  have hbare : Selects ⟨"", suite.modules, suite.enablePreview, none, none, suite.validKeys⟩
      none := by
    intro runner
    cases runner <;> rfl
  exact hbare.select _ _

end DirectoryProperties

namespace SuiteConfig

variable {c : SuiteConfig} {names : List (List Char)} {name : List Char}

/-! ### The way from the suite root -/

/-- The table of a directory: the first one, in the order of their names, whose name has the
directory for its usual form. The suite root has none. -/
def tableAlong? (c : SuiteConfig) (names : List (List Char)) : Option DirectoryTable :=
  if names = [] then none
  else (c.directories.entries.find? fun e => normalizeDir e.1 == dirOf names).map (·.2)

/-- What the table of a directory sets. -/
def setting? {α : Type} (c : SuiteConfig) (field : DirectoryTable → Option α)
    (names : List (List Char)) : Option α :=
  (c.tableAlong? names).bind field

/-- The runner that a directory selects by itself, by the lists of the suite or by its table. -/
def runner? (c : SuiteConfig) (names : List (List Char)) : Option Runner :=
  (c.listedRunner? (dirOf names)).or (c.setting? DirectoryTable.runner? names)

theorem dirsOnTheWay_concat (names : List (List Char)) (name : List Char) :
    dirsOnTheWay (names ++ [name]) = dirsOnTheWay names ++ [dirOf (names ++ [name])] := by
  have hbefore : ∀ n ∈ List.range names.length,
      String.ofList (Path.joinPieces ((names ++ [name]).take (n + 1)))
        = String.ofList (Path.joinPieces (names.take (n + 1))) := by
    intro n hn
    have hlt := List.mem_range.mp hn
    rw [List.take_append_of_le_length (by omega)]
  rw [dirsOnTheWay, List.length_append, List.length_singleton, List.range_succ, List.map_append,
    List.map_congr_left hbefore, List.map_singleton, List.take_of_length_le (by simp)]
  rfl

theorem propertiesFor_nil (c : SuiteConfig) :
    c.propertiesFor (dirOf []) = DirectoryProperties.root c := rfl

/-- What holds for a directory comes from its parent. -/
theorem propertiesFor_concat (h : ∀ n ∈ names ++ [name], IsPlainName n) :
    c.propertiesFor (dirOf (names ++ [name]))
      = (c.propertiesFor (dirOf names)).child c (dirOf (names ++ [name])) := by
  have hnames : ∀ n ∈ names, IsPlainName n := fun n hn => h n (List.mem_append_left _ hn)
  rw [propertiesFor, propertiesFor, dirComponents_dirOf h, dirComponents_dirOf hnames,
    dirsOnTheWay_concat, List.foldl_append]
  rfl

theorem tableFor?_concat (h : ∀ n ∈ names ++ [name], IsPlainName n) :
    c.tableFor? (normalizeDir (dirOf (names ++ [name]))) = c.tableAlong? (names ++ [name]) := by
  rw [tableFor?, tableAlong?, normalizeDir_dirOf h, normalizeDir_dirOf h, if_neg (by simp)]

/-! ### The four rules -/

theorem setting?_nil {α : Type} (c : SuiteConfig) (field : DirectoryTable → Option α) :
    c.setting? field [] = none := rfl

/-- What a table replaces in a child comes from the nearest table that sets it. -/
theorem nearestOr_propertiesFor {α : Type} {value : DirectoryProperties → α}
    {field : DirectoryTable → Option α} (h : ∀ n ∈ names, IsPlainName n)
    (hchild : ∀ (d : DirectoryProperties) dir,
      value (d.child c dir) = ((c.tableFor? (normalizeDir dir)).bind field).getD (value d)) :
    NearestOr (c.setting? field) (value (.root c)) names
      (value (c.propertiesFor (dirOf names))) := by
  induction names using List.reverseRecOn with
  | nil =>
      rw [propertiesFor_nil]
      exact nearestOr_nil (setting?_nil c _)
  | append_singleton names name ih =>
      rw [propertiesFor_concat h, hchild, tableFor?_concat h]
      exact (ih fun n hn => h n (List.mem_append_left _ hn)).concat name

theorem modules_propertiesFor (h : ∀ n ∈ names, IsPlainName n) :
    NearestOr (c.setting? (·.modules)) c.modules names
      (c.propertiesFor (dirOf names)).modules := by
  have hnearest := nearestOr_propertiesFor (c := c) h
    fun d dir => DirectoryProperties.modules_child d c dir
  rwa [DirectoryProperties.modules_root] at hnearest

theorem enablePreview_propertiesFor (h : ∀ n ∈ names, IsPlainName n) :
    NearestOr (c.setting? (·.enablePreview)) c.enablePreview names
      (c.propertiesFor (dirOf names)).enablePreview := by
  have hnearest := nearestOr_propertiesFor (c := c) h
    fun d dir => DirectoryProperties.enablePreview_child d c dir
  rwa [DirectoryProperties.enablePreview_root] at hnearest

theorem keys_propertiesFor_eq_none (h : ∀ n ∈ names, IsPlainName n) (hkeys : c.keys = none) :
    (c.propertiesFor (dirOf names)).keys = none := by
  induction names using List.reverseRecOn with
  | nil =>
      rw [propertiesFor_nil, DirectoryProperties.keys_root, validKeys, hkeys]
      rfl
  | append_singleton names name ih =>
      rw [propertiesFor_concat h, DirectoryProperties.keys_child,
        ih fun n hn => h n (List.mem_append_left _ hn)]
      rfl

/-- Keys remain that the suite has and every table on the way that names keys. -/
theorem exists_keys_propertiesFor (h : ∀ n ∈ names, IsPlainName n) {own : List String}
    (hkeys : c.keys = some own) :
    ∃ allowed, (c.propertiesFor (dirOf names)).keys = some allowed ∧
      ∀ key, allowed.contains key = true ↔ key ∈ own.map normalizeKey ∧
        ∀ p listed, p <+: names → c.setting? (·.keys) p = some listed →
          key ∈ listed.map normalizeKey := by
  induction names using List.reverseRecOn with
  | nil =>
      refine ⟨NameSet.ofNames (own.map normalizeKey), ?_, fun key => ?_⟩
      · rw [propertiesFor_nil, DirectoryProperties.keys_root, validKeys, hkeys]
        rfl
      · rw [NameSet.contains_ofNames]
        refine ⟨fun hkey => ⟨hkey, fun p listed hp hlisted => ?_⟩, And.left⟩
        rw [List.prefix_nil.mp hp, setting?_nil] at hlisted
        exact nomatch hlisted
  | append_singleton names name ih =>
      obtain ⟨inherited, hinherited, hcontains⟩ := ih fun n hn => h n (List.mem_append_left _ hn)
      refine ⟨DirectoryProperties.narrowed inherited (c.setting? (·.keys) (names ++ [name])), ?_,
        fun key => ?_⟩
      · rw [propertiesFor_concat h, DirectoryProperties.keys_child, tableFor?_concat h, hinherited]
        rfl
      · rw [DirectoryProperties.contains_narrowed, hcontains, and_assoc]
        refine and_congr_right fun _ => ⟨fun ⟨hbefore, hlast⟩ p listed hp hlisted => ?_,
          fun hall => ⟨fun p listed hp => hall p listed (hp.trans (List.prefix_append _ _)),
            fun listed => hall (names ++ [name]) listed List.prefix_rfl⟩⟩
        rcases List.prefix_concat_iff.mp hp with rfl | hp
        · exact hlast listed hlisted
        · exact hbefore p listed hp hlisted

/-- A selection that is made by the first directory on the way that selects a runner. -/
structure IsFirst (c : SuiteConfig) (names : List (List Char))
    (selection : Option (Runner × String)) : Prop where
  none : selection = none → ∀ p, p <+: names → c.runner? p = none
  some : ∀ runner root, selection = some (runner, root) →
    ∃ p, FirstSet c.runner? names p runner ∧ root = dirOf p

theorem IsFirst.concat {selection : Option (Runner × String)} (h : c.IsFirst names selection)
    (name : List Char) :
    c.IsFirst (names ++ [name]) (selection.or
      ((c.runner? (names ++ [name])).map fun runner => (runner, dirOf (names ++ [name])))) := by
  cases selection with
  | some s =>
      refine ⟨fun hnone => (nomatch hnone), fun runner root hsome => ?_⟩
      obtain ⟨p, hfirst, hroot⟩ := h.some runner root hsome
      exact ⟨p, hfirst.append [name], hroot⟩
  | none =>
      have hbefore := h.none rfl
      rw [Option.none_or]
      constructor
      · intro hnone p hp
        rcases List.prefix_concat_iff.mp hp with rfl | hp
        · exact Option.map_eq_none_iff.mp hnone
        · exact hbefore p hp
      · intro runner root hsome
        obtain ⟨selected, hselected, heq⟩ := Option.map_eq_some_iff.mp hsome
        obtain ⟨rfl, rfl⟩ := Prod.mk.inj heq
        exact ⟨names ++ [name], firstSet_concat hbefore hselected, rfl⟩

theorem isFirst_nil (c : SuiteConfig) :
    c.IsFirst [] ((c.listedRunner? "").map fun runner => (runner, "")) := by
  have hrunner : c.runner? [] = c.listedRunner? "" := Option.or_none
  constructor
  · intro hnone p hp
    rw [List.prefix_nil.mp hp, hrunner]
    exact Option.map_eq_none_iff.mp hnone
  · intro runner root hsome
    obtain ⟨selected, hselected, heq⟩ := Option.map_eq_some_iff.mp hsome
    obtain ⟨rfl, rfl⟩ := Prod.mk.inj heq
    refine ⟨[], ⟨List.prefix_rfl, hrunner.trans hselected, fun q _ hlt => ?_⟩, rfl⟩
    exact absurd hlt (Nat.not_lt_zero _)

theorem exists_selects_propertiesFor (h : ∀ n ∈ names, IsPlainName n) :
    ∃ selection, (c.propertiesFor (dirOf names)).Selects selection ∧
      c.IsFirst names selection := by
  induction names using List.reverseRecOn with
  | nil => exact ⟨_, DirectoryProperties.selects_root c, isFirst_nil c⟩
  | append_singleton names name ih =>
      obtain ⟨selection, hselects, hfirst⟩ := ih fun n hn => h n (List.mem_append_left _ hn)
      have hchild := hselects.child c (dirOf (names ++ [name]))
      rw [tableFor?_concat h, normalizeDir_dirOf h, ← propertiesFor_concat h] at hchild
      exact ⟨_, hchild, hfirst.concat name⟩

theorem dir_propertiesFor (h : ∀ n ∈ names, IsPlainName n) :
    (c.propertiesFor (dirOf names)).dir = dirOf names := by
  induction names using List.reverseRecOn with
  | nil =>
      rw [propertiesFor_nil, DirectoryProperties.dir_root]
      rfl
  | append_singleton names name =>
      rw [propertiesFor_concat h, DirectoryProperties.dir_child, normalizeDir_dirOf h]

/-- The properties of a directory by the rules of inheritance. -/
structure Inherits (c : SuiteConfig) (names : List (List Char)) (d : DirectoryProperties) :
    Prop where
  dir : d.dir = dirOf names
  modules : NearestOr (c.setting? (·.modules)) c.modules names d.modules
  enablePreview : NearestOr (c.setting? (·.enablePreview)) c.enablePreview names d.enablePreview
  noKeys : d.keys = none ↔ c.keys = none
  keys : ∀ own allowed, c.keys = some own → d.keys = some allowed → ∀ key,
    allowed.contains key = true ↔ key ∈ own.map normalizeKey ∧
      ∀ p listed, p <+: names → c.setting? (·.keys) p = some listed →
        key ∈ listed.map normalizeKey
  oneRunner : d.testngRoot = none ∨ d.junitRoot = none
  runner : ∀ runner root, d.rootOf runner = some root ↔
    ∃ p, FirstSet c.runner? names p runner ∧ root = dirOf p

theorem inherits_propertiesFor (h : ∀ n ∈ names, IsPlainName n) :
    c.Inherits names (c.propertiesFor (dirOf names)) := by
  obtain ⟨selection, hselects, hfirst⟩ := exists_selects_propertiesFor (c := c) h
  refine ⟨dir_propertiesFor h, modules_propertiesFor h, enablePreview_propertiesFor h, ?_, ?_, ?_,
    fun runner root => ?_⟩
  · constructor
    · intro hnone
      by_contra hkeys
      obtain ⟨own, hown⟩ := Option.ne_none_iff_exists'.mp hkeys
      obtain ⟨allowed, hallowed, -⟩ := exists_keys_propertiesFor h hown
      rw [hnone] at hallowed
      exact nomatch hallowed
    · exact keys_propertiesFor_eq_none h
  · intro own allowed hown hallowed
    obtain ⟨allowed', hallowed', hcontains⟩ := exists_keys_propertiesFor h hown
    obtain rfl := Option.some.inj (hallowed.symm.trans hallowed')
    exact hcontains
  · have htestng := hselects .testng
    have hjunit := hselects .junit
    unfold DirectoryProperties.rootOf at htestng hjunit
    cases selection with
    | none => exact Or.inl htestng
    | some s =>
        obtain ⟨selected, root⟩ := s
        cases selected with
        | testng => exact Or.inr hjunit
        | junit => exact Or.inl htestng
  · rw [hselects runner]
    cases hselection : selection with
    | none =>
        constructor
        · exact fun hroot => nomatch hroot
        · rintro ⟨p, hp, -⟩
          have hnone := hfirst.none hselection p hp.isPrefix
          rw [hp.value_eq] at hnone
          exact nomatch hnone
    | some s =>
        obtain ⟨selected, base⟩ := s
        obtain ⟨p, hp, rfl⟩ := hfirst.some selected base hselection
        rw [Option.bind_some]
        constructor
        · intro hroot
          split_ifs at hroot with hsame
          obtain rfl := hsame
          exact ⟨p, hp, (Option.some.inj hroot).symm⟩
        · rintro ⟨q, hq, rfl⟩
          obtain ⟨rfl, rfl⟩ := hp.unique hq
          exact if_pos rfl

/-! ### Further down -/

variable {more : List (List Char)} {d below : DirectoryProperties}

theorem Inherits.keys_below (h : c.Inherits names d) (h' : c.Inherits (names ++ more) below)
    {allowed : NameSet} (hallowed : below.keys = some allowed) :
    ∃ inherited, d.keys = some inherited ∧
      ∀ key, allowed.contains key = true → inherited.contains key = true := by
  have hown : c.keys ≠ none := by
    rw [Ne, ← h'.noKeys, hallowed]
    exact Option.some_ne_none allowed
  obtain ⟨own, hown⟩ := Option.ne_none_iff_exists'.mp hown
  have hinherited : d.keys ≠ none := by
    rw [Ne, h.noKeys, hown]
    exact Option.some_ne_none own
  obtain ⟨inherited, hinherited⟩ := Option.ne_none_iff_exists'.mp hinherited
  refine ⟨inherited, hinherited, fun key hkey => ?_⟩
  obtain ⟨hlisted, hall⟩ := (h'.keys own allowed hown hallowed key).mp hkey
  exact (h.keys own inherited hown hinherited key).mpr
    ⟨hlisted, fun p listed hp => hall p listed (hp.trans (List.prefix_append _ _))⟩

theorem Inherits.rootOf_below (h : c.Inherits names d) (h' : c.Inherits (names ++ more) below)
    {selected : Runner} {base : String} (hbase : d.rootOf selected = some base)
    (runner : Runner) : below.rootOf runner = d.rootOf runner := by
  obtain ⟨p, hp, -⟩ := (h.runner selected base).mp hbase
  have hbelow := hp.append more
  ext root
  rw [h'.runner, h.runner]
  constructor
  · rintro ⟨q, hq, rfl⟩
    obtain ⟨rfl, rfl⟩ := hbelow.unique hq
    exact ⟨p, hp, rfl⟩
  · rintro ⟨q, hq, rfl⟩
    exact ⟨q, hq.append more, rfl⟩

/-- A directory of plain names has what the rules of inheritance give it. A directory below it has
no keys that it has not, and the same runner if it has one. -/
theorem propertiesFor_rules (c : SuiteConfig) {names more : List (List Char)}
    (h : ∀ name ∈ names ++ more, IsPlainName name) :
    let d := c.propertiesFor (dirOf names)
    let below := c.propertiesFor (dirOf (names ++ more))
    c.Inherits names d ∧
      (∀ allowed, below.keys = some allowed → ∃ inherited, d.keys = some inherited ∧
        ∀ key, allowed.contains key = true → inherited.contains key = true) ∧
      (d.hasRunner = true → below.testngRoot = d.testngRoot ∧ below.junitRoot = d.junitRoot) := by
  intro d below
  have hd : c.Inherits names d := inherits_propertiesFor fun n hn => h n (List.mem_append_left _ hn)
  have hbelow : c.Inherits (names ++ more) below := inherits_propertiesFor h
  refine ⟨hd, fun allowed => hd.keys_below hbelow, fun hrunner => ?_⟩
  obtain ⟨selected, base, hbase⟩ : ∃ selected base, d.rootOf selected = some base := by
    rcases Bool.or_eq_true_iff.mp hrunner with htestng | hjunit
    · exact ⟨.testng, Option.isSome_iff_exists.mp htestng⟩
    · exact ⟨.junit, Option.isSome_iff_exists.mp hjunit⟩
  exact ⟨hd.rootOf_below hbelow hbase .testng, hd.rootOf_below hbelow hbase .junit⟩

/-- Tables that replace, narrow and come too late, two of them under names that are not in their
usual form. -/
theorem propertiesFor_rules_deeper :
    let c : SuiteConfig := { default with
      keys := some ["a", "b-c"]
      modules := ["java.base"]
      testngDirs := ["ng/p/"]
      directories := Table.ofList
        [("./ng", ⟨some ["java.xml"], some true, false, false, none⟩),
          ("ng/p", ⟨none, some false, false, true, some ["b-c", "d"]⟩),
          ("ng//p/q", ⟨none, none, false, true, none⟩)] }
    let names := ["ng".toList, "p".toList]
    let more := ["q".toList]
    let below := c.propertiesFor "ng/p/q"
    (∀ name ∈ names ++ more, IsPlainName name) ∧ c.Inherits names (c.propertiesFor "ng/p") ∧
      below = ⟨"ng/p/q", ["java.xml"], false, some "ng/p", none,
        some (NameSet.ofNames ["b_c"])⟩ ∧
      ∃ inherited, (c.propertiesFor "ng/p").keys = some inherited ∧
        inherited.contains "b_c" = true := by
  intro c names more below
  have hplain : ∀ name ∈ names ++ more, IsPlainName name := by decide +kernel
  have hbelow : below = ⟨"ng/p/q", ["java.xml"], false, some "ng/p", none,
      some (NameSet.ofNames ["b_c"])⟩ := by
    decide +kernel
  obtain ⟨hinherits, hkeys, -⟩ := propertiesFor_rules c hplain
  have hdir : dirOf names = "ng/p" := by decide +kernel
  have hdeeper : dirOf (names ++ more) = "ng/p/q" := by decide +kernel
  rw [hdir] at hinherits hkeys
  rw [hdeeper] at hkeys
  obtain ⟨inherited, hinherited, hsubset⟩ := hkeys _ (congrArg DirectoryProperties.keys hbelow)
  exact ⟨hplain, hinherits, hbelow, inherited, hinherited, hsubset _ (by decide +kernel)⟩

end SuiteConfig

end TestSelection
