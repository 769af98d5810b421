import TestSelection.Proofs.Path
import TestSelection.Proofs.Suite.DirectoryName
import TestSelection.Proofs.Suite.Validity

/-!
Directories that lead out of the suite. A directory is checked for `..` by the parts of its path,
which only slashes separate, but is looked up by its usual form, for which backslashes separate too.
So the check keeps every directory below the suite root, except where a name has backslashes and
two points stand alone between them: there the usual form goes to a parent.
-/

namespace TestSelection.SuiteConfig

variable {dir field : String}

theorem up_mem_parts_normalizeDir_iff :
    .up ∈ (⟨normalizeDir dir⟩ : Path).parts ↔ ['.', '.'] ∈ dirComponents dir := by
  rw [Path.up_mem_parts_iff, normalizeDir, String.toList_ofList, Path.joinPieces]
  cases hnames : dirComponents dir with
  | nil => simp [Chars.splitAt, Chars.splitBy]
  | cons first rest =>
      rw [← hnames, Chars.splitAt_intercalate (hnames ▸ List.cons_ne_nil first rest)
        fun _ hname => (isComponent_of_mem_dirComponents hname).noSlash]

/-- The usual form of a directory that is let through goes to a parent exactly if between two of its
slashes there are backslashes that have `..` alone between them. -/
theorem climbs_iff_of_checkRelativeDir (h : checkRelativeDir field dir = .ok ()) :
    .up ∈ (⟨normalizeDir dir⟩ : Path).parts ↔
      ∃ name ∈ Chars.splitAt '/' (Text.trim dir).toList,
        '\\' ∈ name ∧ ['.', '.'] ∈ Chars.splitAt '\\' name := by
  obtain ⟨-, -, hup⟩ := checkRelativeDir_eq_ok.mp h
  rw [Path.up_mem_parts_iff] at hup
  rw [up_mem_parts_normalizeDir_iff, mem_dirComponents_iff]
  constructor
  · rintro ⟨-, -, name, hname, hpoints⟩
    refine ⟨name, hname, ?_, hpoints⟩
    by_contra hbackslash
    rw [Chars.splitAt_of_notMem hbackslash, List.mem_singleton] at hpoints
    exact hup (hpoints ▸ hname)
  · rintro ⟨name, hname, -, hpoints⟩
    exact ⟨by simp, by simp, name, hname, hpoints⟩

/-- Backslashes alone do no harm, and neither do two points between blanks. -/
theorem climbs_iff_reflect :
    checkRelativeDir "testng_dirs[0]" "./lang\\reflect/ .. /a" = .ok () ∧
      .up ∉ (⟨normalizeDir "./lang\\reflect/ .. /a"⟩ : Path).parts ∧
      checkRelativeDir "junit_dirs[1]" "a\\..\\..\\b" = .ok () ∧
      .up ∈ (⟨normalizeDir "a\\..\\..\\b"⟩ : Path).parts := by
  have hbelow : checkRelativeDir "testng_dirs[0]" "./lang\\reflect/ .. /a" = .ok () := by
    decide +kernel
  have hout : checkRelativeDir "junit_dirs[1]" "a\\..\\..\\b" = .ok () := by decide +kernel
  exact ⟨hbelow, (climbs_iff_of_checkRelativeDir hbelow).not.mpr (by decide +kernel), hout,
    (climbs_iff_of_checkRelativeDir hout).mpr (by decide +kernel)⟩

/-- A valid configuration that selects a runner outside of the suite. -/
theorem climbs_backslash :
    let c : SuiteConfig := { default with testngDirs := ["..\\x"] }
    c.check = .ok () ∧ .up ∈ (⟨normalizeDir "..\\x"⟩ : Path).parts ∧
      (c.propertiesFor "../x").testngRoot = some "../x" := by
  decide +kernel

end TestSelection.SuiteConfig
