import TestSelection.Proofs.Suite.Validity

/-!
Which tables of a valid configuration count for their own directories. A table is looked up on the
way to its directory, under the usual forms of what is passed there. It is found at the end of the
way, and what it sets is the nearest setting, unless one of three things keeps it back: its directory
is the suite root, to which no way leads; blanks at the ends of the usual form are lost when it is
looked up; or a name in front of its own has the same usual form. A table that is kept back is not
looked at anywhere on the way, so that nothing in it makes a difference for its directory.
-/

namespace TestSelection

namespace SuiteConfig

variable {c : SuiteConfig} {dir d : String} {table : DirectoryTable}

/-- The modules and the preview that a table sets hold for its directory. -/
def TakesEffect (c : SuiteConfig) (dir : String) : Prop :=
  ∀ table, c.directories.get? dir = some table →
    (∀ b, table.enablePreview = some b → (c.propertiesFor dir).enablePreview = b) ∧
      ∀ modules, table.modules = some modules → (c.propertiesFor dir).modules = modules

/-- The name of a table under which it is found. -/
structure InForce (c : SuiteConfig) (dir : String) : Prop where
  below : normalizeDir dir ≠ ""
  trim_eq : Text.trim (normalizeDir dir) = normalizeDir dir
  first : ∀ other ∈ c.directories.names, normalizeDir other = normalizeDir dir → dir ≤ other

def withTable (c : SuiteConfig) (dir : String) (table : DirectoryTable) : SuiteConfig :=
  { c with directories := c.directories.insert dir table }

/-! ### Tables in force -/

/-- The last step of a way leads to the directory. -/
theorem exists_propertiesFor_eq_child (h : normalizeDir dir ≠ "") :
    ∃ parent : DirectoryProperties, c.propertiesFor dir = parent.child c (normalizeDir dir) := by
  rcases List.eq_nil_or_concat (dirComponents dir) with hnil | ⟨front, last, hcomponents⟩
  · exact absurd (normalizeDir_eq_empty_iff.mpr hnil) h
  · rw [List.concat_eq_append] at hcomponents
    rw [propertiesFor, hcomponents, dirsOnTheWay_concat, List.foldl_concat, ← hcomponents]
    exact ⟨_, rfl⟩

theorem InForce.tableFor?_eq (h : c.InForce dir) (htable : c.directories.get? dir = some table) :
    c.tableFor? (normalizeDir (normalizeDir dir)) = some table := by
  obtain ⟨before, after, hentries, -⟩ := Table.find?_eq_some_iff.mp htable
  have hordered := c.directories.ordered
  rw [hentries] at hordered
  rw [tableFor?, normalizeDir_normalizeDir h.trim_eq, normalizeDir_normalizeDir h.trim_eq,
    Option.map_eq_some_iff]
  refine ⟨(dir, table), List.find?_eq_some_iff_append.mpr ⟨beq_self_eq_true _, before, after,
    hentries, fun e he => ?_⟩, rfl⟩
  have hlt : e.1 < dir := (List.pairwise_append.mp hordered).2.2 e he _ List.mem_cons_self
  have hmem : e.1 ∈ c.directories.names :=
    List.mem_map_of_mem (hentries ▸ List.mem_append_left _ he)
  rw [Bool.not_eq_true', beq_eq_false_iff_ne]
  exact fun hsame => h.first e.1 hmem hsame hlt

theorem InForce.takesEffect (h : c.InForce dir) : c.TakesEffect dir := by
  intro table htable
  obtain ⟨parent, hproperties⟩ := exists_propertiesFor_eq_child (c := c) h.below
  rw [hproperties, DirectoryProperties.enablePreview_child, DirectoryProperties.modules_child,
    h.tableFor?_eq htable]
  refine ⟨fun b hb => ?_, fun modules hmodules => ?_⟩
  · rw [Option.bind_some, hb, Option.getD_some]
  · rw [Option.bind_some, hmodules, Option.getD_some]

/-! ### Tables that are kept back -/

/-- What is passed on the way to a directory is shorter than its usual form. -/
theorem of_mem_dirsOnTheWay (h : d ∈ dirsOnTheWay (dirComponents dir)) :
    d = normalizeDir dir ∨ d.length < (normalizeDir dir).length := by
  obtain ⟨n, hn, rfl⟩ := List.mem_map.mp h
  have hlt := List.mem_range.mp hn
  by_cases hlast : (dirComponents dir).length ≤ n + 1
  · rw [List.take_of_length_le hlast]
    exact Or.inl rfl
  · rw [normalizeDir, String.length_ofList, String.length_ofList]
    refine Or.inr ((Chars.length_intercalate_of_sublist (List.take_sublist _ _)).2 ?_ ?_)
    · rw [List.length_take]
      omega
    · rw [List.length_take]
      omega

/-- A table that is not in force has a name in front of it wherever its own would be found. -/
theorem exists_lt_of_not_inForce (h : ¬ c.InForce dir)
    (hd : d ∈ dirsOnTheWay (dirComponents dir))
    (hsame : normalizeDir dir = normalizeDir (normalizeDir d)) :
    ∃ e ∈ c.directories.entries, e.1 < dir ∧ normalizeDir e.1 = normalizeDir dir := by
  by_contra hnone
  have hfirst : ∀ e ∈ c.directories.entries, e.1 < dir → normalizeDir e.1 ≠ normalizeDir dir :=
    fun e he hlt heq => hnone ⟨e, he, hlt, heq⟩
  refine h ⟨fun hroot => ?_, ?_, fun other hother hother_eq => ?_⟩
  · rw [normalizeDir_eq_empty_iff.mp hroot] at hd
    exact nomatch hd
  · by_contra htrim
    have hle : (normalizeDir dir).length ≤ (Text.trim d).length := by
      calc (normalizeDir dir).length
          = (normalizeDir (normalizeDir d)).length := congrArg String.length hsame
        _ ≤ (Text.trim (normalizeDir d)).length := length_normalizeDir_le _
        _ ≤ (normalizeDir d).length := Text.length_trim_le _
        _ ≤ (Text.trim d).length := length_normalizeDir_le d
    rcases of_mem_dirsOnTheWay hd with rfl | hlt
    · exact absurd (Text.length_trim_lt htrim) (by omega)
    · have htrimmed := Text.length_trim_le d
      omega
  · obtain ⟨e, he, rfl⟩ := List.mem_map.mp hother
    exact fun hlt => hfirst e he hlt hother_eq

theorem tableFor?_withTable (h : ¬ c.InForce dir) (hd : d ∈ dirsOnTheWay (dirComponents dir)) :
    (c.withTable dir table).tableFor? (normalizeDir d) = c.tableFor? (normalizeDir d) := by
  refine congrArg (Option.map Prod.snd) (Table.find?_place_of_kind
    (normalizeDir · == normalizeDir (normalizeDir d)) c.directories.ordered fun hkind => ?_)
  have hsame := beq_iff_eq.mp hkind
  obtain ⟨e, he, hlt, heq⟩ := exists_lt_of_not_inForce h hd hsame
  exact ⟨e, he, hlt, beq_iff_eq.mpr (heq.trans hsame)⟩

/-- What stands in a table that is not in force makes no difference. -/
theorem propertiesFor_withTable (h : ¬ c.InForce dir) (table : DirectoryTable) :
    (c.withTable dir table).propertiesFor dir = c.propertiesFor dir := by
  rw [propertiesFor, propertiesFor]
  refine List.foldl_ext _ _ _ fun parent d hd => ?_
  rw [DirectoryProperties.child_eq, DirectoryProperties.child_eq, tableFor?_withTable h hd]
  rfl

theorem check_withTable (h : c.check = .ok ()) (hdir : dir ∈ c.directories.names)
    (htable : table.check ("directories.\"" ++ dir ++ "\"") = .ok ()) :
    (c.withTable dir table).check = .ok () := by
  obtain ⟨hsuite, hdirectories⟩ := check_bind_eq_ok.mp h
  obtain ⟨htestng, hjunit, htables⟩ := checkDirectories_eq_ok.mp hdirectories
  refine check_bind_eq_ok.mpr ⟨hsuite, checkDirectories_eq_ok.mpr ⟨htestng, hjunit, ?_⟩⟩
  intro name other hmem
  rcases Table.mem_place hmem with heq | hmem
  · obtain ⟨rfl, rfl⟩ := Prod.mk.inj heq
    obtain ⟨⟨_, own⟩, hown, rfl⟩ := List.mem_map.mp hdir
    exact ⟨(htables _ own hown).1, htable⟩
  · exact htables name other hmem

/-- In a valid configuration a table takes effect that is in force. One that is not cannot: there is
a table that could stand in its place and would not take effect. -/
theorem takesEffect_of_check (h : c.check = .ok ()) (hdir : dir ∈ c.directories.names) :
    (c.InForce dir → c.TakesEffect dir) ∧
      (¬ c.InForce dir → ∃ table, (c.withTable dir table).check = .ok () ∧
        ¬ (c.withTable dir table).TakesEffect dir) := by
  refine ⟨InForce.takesEffect, fun hforce => ?_⟩
  let table : DirectoryTable :=
    { DirectoryTable.empty with enablePreview := some !(c.propertiesFor dir).enablePreview }
  refine ⟨table, check_withTable h hdir rfl, fun heffect => ?_⟩
  have hget : (c.withTable dir table).directories.get? dir = some table :=
    (Table.get?_insert _ _ _ _).trans (if_pos rfl)
  have hpreview := (heffect table hget).1 _ rfl
  rw [propertiesFor_withTable hforce] at hpreview
  exact Bool.not_ne_self _ hpreview.symm

/-- A table with a name that is not in its usual form, and one for the suite root. -/
theorem takesEffect_of_check_spelling :
    let c : SuiteConfig := { default with
      directories := Table.ofList
        [("./lang//invoke/", ⟨some ["m"], some true, false, false, none⟩),
          ("lang", ⟨some ["n"], some false, false, false, none⟩),
          (".", ⟨some ["k"], none, false, false, none⟩)] }
    c.check = .ok () ∧ "./lang//invoke/" ∈ c.directories.names ∧ c.InForce "./lang//invoke/" ∧
      c.TakesEffect "./lang//invoke/" ∧ "." ∈ c.directories.names ∧ ¬ c.InForce "." ∧
      ∃ table, (c.withTable "." table).check = .ok () ∧
        ¬ (c.withTable "." table).TakesEffect "." := by
  intro c
  have hcheck : c.check = .ok () := by decide +kernel
  have hlang : "./lang//invoke/" ∈ c.directories.names := by decide +kernel
  have hroot : "." ∈ c.directories.names := by decide +kernel
  have hforce : c.InForce "./lang//invoke/" :=
    ⟨by decide +kernel, by decide +kernel, by decide +kernel⟩
  have hback : ¬ c.InForce "." := fun h => absurd h.below (by decide +kernel)
  exact ⟨hcheck, hlang, hforce, (takesEffect_of_check hcheck hlang).1 hforce, hroot, hback,
    (takesEffect_of_check hcheck hroot).2 hback⟩

/-- The table of the suite root does not take effect, although it is a valid one. -/
theorem not_takesEffect_root :
    let c : SuiteConfig := { default with
      directories := Table.ofList [(".", ⟨some ["m"], some true, false, false, none⟩)] }
    c.check = .ok () ∧ "." ∈ c.directories.names ∧ ¬ c.TakesEffect "." := by
  intro c
  have hget : c.directories.get? "." = some ⟨some ["m"], some true, false, false, none⟩ := by
    decide +kernel
  refine ⟨by decide +kernel, by decide +kernel, fun heffect => ?_⟩
  have hmodules := (heffect _ hget).2 ["m"] rfl
  exact absurd hmodules (by decide +kernel)

end SuiteConfig

end TestSelection
