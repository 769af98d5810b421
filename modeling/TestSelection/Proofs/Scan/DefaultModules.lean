import TestSelection.Proofs.Letters
import TestSelection.Proofs.ModuleSpec
import TestSelection.Proofs.Scan.Ids
import TestSelection.Proofs.Suite.Validity
import TestSelection.Proofs.Tag.Step

/-!
The modules of a test that names none. They are read from the entries of its directory, and an entry
that cannot be read is left out without a word. The check of the configuration does not prevent
this: it lets parts of a module's name start with digits, and does not look at what follows the
first slash. Apart from these two the entries of a valid configuration are read.
-/

namespace TestSelection

/-! ### Entries of a valid configuration -/

theorem startsIdentifier_of_isWordChar {c : Char} (h : Chars.isWordChar c = true) :
    ModuleSpec.startsIdentifier c = true ↔ c.isDigit = false := by
  rw [ModuleSpec.startsIdentifier, Chars.isAlphabetic_of_lt (Chars.toNat_of_isWordChar h)]
  cases hdigit : c.isDigit with
  | true =>
      have hunderscore : c ≠ '_' := by
        rintro rfl
        exact absurd hdigit (by decide)
      have hdollar : c ≠ '$' := by
        rintro rfl
        exact absurd hdigit (by decide)
      simp [Chars.isAlpha_of_isDigit hdigit, hunderscore, hdollar]
  | false =>
      rcases Chars.isWordChar_iff.mp h with hletter | hdigit' | rfl
      · simp [hletter]
      · exact absurd (hdigit'.symm.trans hdigit) Bool.noConfusion
      · decide

theorem continuesIdentifier_of_isWordChar {c : Char} (h : Chars.isWordChar c = true) :
    ModuleSpec.continuesIdentifier c = true := by
  rw [ModuleSpec.continuesIdentifier, Chars.isAlphanumeric_of_lt (Chars.toNat_of_isWordChar h)]
  exact Bool.or_eq_true_iff.mpr (Or.inl h)

/-- A word is an identifier unless it starts with a digit. -/
theorem isIdentifier_of_isWord {s : List Char} (h : isWord s = true) :
    ModuleSpec.isIdentifier s = true ↔ ∀ c, s.head? = some c → c.isDigit = false := by
  cases s with
  | nil => exact absurd h (by decide)
  | cons c rest =>
      have hword : (c :: rest).all Chars.isWordChar = true := h
      have hrest : (c :: rest).all ModuleSpec.continuesIdentifier = true :=
        List.all_eq_true.mpr fun x hx =>
          continuesIdentifier_of_isWordChar (List.all_eq_true.mp hword x hx)
      have hfirst := startsIdentifier_of_isWordChar (List.all_eq_true.mp hword c List.mem_cons_self)
      rw [ModuleSpec.isIdentifier, hrest, Bool.and_true, hfirst]
      constructor
      · rintro hdigit _ ⟨⟩
        exact hdigit
      · exact fun hall => hall c rfl

/-- What an entry of a valid configuration needs to be read. -/
structure IsReadable (entry : String) : Prop where
  /-- No part of the module's name starts with a digit. -/
  name : ∀ piece ∈ Chars.splitAt '.' (entry.toList.takeWhile (· != '/')),
    ∀ c, piece.head? = some c → c.isDigit = false
  /-- What follows the first slash is a package, alone or with kinds of access behind a colon. -/
  package : ∀ module rest, '/' ∉ module → entry.toList = module ++ '/' :: rest →
    ModuleSpec.IsPackageText rest

theorem isReadable_iff {entry : String} (h : isModuleEntry entry = true) :
    IsReadable entry ↔ ∃ m, ModuleSpec.parse entry = .ok m := by
  have hname : ModuleSpec.isQualifiedName (entry.toList.takeWhile (· != '/')) = true ↔
      ∀ piece ∈ Chars.splitAt '.' (entry.toList.takeWhile (· != '/')),
        ∀ c, piece.head? = some c → c.isDigit = false := by
    rw [ModuleSpec.isQualifiedName, List.all_eq_true]
    exact forall₂_congr fun piece hpiece =>
      isIdentifier_of_isWord (List.all_eq_true.mp h piece hpiece)
  rw [ModuleSpec.exists_parse_eq_ok, hname]
  exact ⟨fun hentry => ⟨hentry.name, hentry.package⟩, fun ⟨hname, hpackage⟩ => ⟨hname, hpackage⟩⟩

/-! ### Entries that are left out -/

theorem map_render_filterMap_parse (entries : List String) :
    (entries.filterMap fun token => (ModuleSpec.parse token).toOption).map ModuleSpec.render
      = entries.filter fun token => (ModuleSpec.parse token).toOption.isSome := by
  induction entries with
  | nil => rfl
  | cons entry rest ih =>
      cases hparse : ModuleSpec.parse entry with
      | error problem => simpa [hparse, Except.toOption] using ih
      | ok m =>
          have hrender := (ModuleSpec.parse_eq_ok_iff.mp hparse).2
          simpa [hparse, Except.toOption, hrender] using ih

namespace Declaration

theorem modules_ofEntries (rules : TagRules) {entries : List TagEntry}
    (h : ∀ e ∈ entries, e.name ≠ "modules") : (ofEntries rules entries).modules = none :=
  List.foldlRecOn (motive := fun d : Declaration => d.modules = none) entries _ rfl
    fun d hd e he => by rw [apply_eq, if_neg (h e he), hd]

theorem modules_describe (d : Declaration) (file : Path) (relativePath : String) (line : Nat)
    (id : Option String) (dir : DirectoryProperties) :
    (d.describe file relativePath line id dir).modules = d.modules.getD
      (dir.modules.filterMap fun token => (ModuleSpec.parse token).toOption) := by
  rw [describe]
  dsimp only
  split
  · rfl
  · split <;> rfl

end Declaration

namespace ScanConfig

/-- In a suite with a valid configuration, a test without a tag for modules has those of its
directory's entries that can be read, in their order, each of which it prints again. It has all of
them exactly if no part of a module's name starts with a digit and every first slash is followed by
a package. -/
theorem modules_testsOfComments (c : ScanConfig) (h : c.suite.check = .ok ()) (name : String)
    (file : Path) (relativePath : String) (comments : List Comment) :
    let dir := c.suite.propertiesFor name
    List.Forall₂ (fun (comment : Comment) (test : Description) =>
        (∀ e ∈ TagEntry.ofComment comment.text, e.name ≠ "modules") →
          (test.modules.map ModuleSpec.render).Sublist dir.modules ∧
            (test.modules.map ModuleSpec.render = dir.modules ↔
              ∀ entry ∈ dir.modules, IsReadable entry))
      (comments.filter Comment.declaresTest)
      (c.testsOfComments file relativePath comments dir) := by
  intro dir
  have htests := c.forall₂_testsOfComments file relativePath comments dir
  refine htests.imp fun comment test htest hnone => ?_
  have hmodules : test.modules.map ModuleSpec.render
      = dir.modules.filter fun token => (ModuleSpec.parse token).toOption.isSome := by
    rw [htest, Declaration.modules_describe, Declaration.modules_ofEntries _ hnone,
      Option.getD_none, map_render_filterMap_parse]
  rw [hmodules, List.filter_eq_self]
  refine ⟨List.filter_sublist, forall₂_congr fun entry hentry => ?_⟩
  rw [isReadable_iff (SuiteConfig.isModuleEntry_of_mem_modules h hentry)]
  cases ModuleSpec.parse entry <;> simp [Except.toOption]

/-- Entries of the suite and of a table, all of which can be read. -/
theorem modules_testsOfComments_read :
    let suite : SuiteConfig := { SuiteConfig.default with
      modules := ["java.base"]
      directories := Table.ofList
        [("lib", ⟨some ["java.base/jdk.internal.misc:open,+open", "jdk.net"], none, false, false,
          none⟩)] }
    let c := forSuite ⟨"suite"⟩ suite
    let comments : List Comment := [⟨1, "@test"⟩]
    let tests := c.testsOfComments ⟨"suite/lib/A.java"⟩ "lib/A.java" comments
      (c.suite.propertiesFor "lib")
    c.suite.check = .ok () ∧
      tests.map (·.modules) = [[⟨"java.base", some "jdk.internal.misc", [.openAccess, .plusOpen]⟩,
        ⟨"jdk.net", none, []⟩]] ∧
      ∀ entry ∈ ["java.base/jdk.internal.misc:open,+open", "jdk.net"], IsReadable entry := by
  intro suite c comments tests
  have hcheck : c.suite.check = .ok () := by decide +kernel
  have hmodules : tests.map (·.modules) = [[⟨"java.base", some "jdk.internal.misc",
      [.openAccess, .plusOpen]⟩, ⟨"jdk.net", none, []⟩]] := by
    decide +kernel
  have hentries : (c.suite.propertiesFor "lib").modules
      = ["java.base/jdk.internal.misc:open,+open", "jdk.net"] := by
    decide +kernel
  refine ⟨hcheck, hmodules, ?_⟩
  have hcomments : comments.filter Comment.declaresTest = [⟨1, "@test"⟩] := by decide +kernel
  have hall := c.modules_testsOfComments hcheck "lib" ⟨"suite/lib/A.java"⟩ "lib/A.java" comments
  rw [hcomments, List.forall₂_cons_left_iff] at hall
  obtain ⟨test, rest, htest, -, htests⟩ := hall
  obtain ⟨-, hiff⟩ := htest (by decide +kernel)
  have hfirst : test.modules = [⟨"java.base", some "jdk.internal.misc", [.openAccess, .plusOpen]⟩,
      ⟨"jdk.net", none, []⟩] := by
    have hcons : tests = test :: rest := htests
    rw [hcons] at hmodules
    exact (List.cons.inj hmodules).1
  rw [← hentries]
  apply hiff.mp
  rw [hfirst, hentries]
  decide +kernel

/-- A valid configuration with a kind of access that does not exist: the test has no modules at all,
and no error. -/
theorem modules_testsOfComments_misspelt :
    let c := forSuite ⟨"suite"⟩ { SuiteConfig.default with modules := ["no.such/pkg:opens"] }
    let dir := c.suite.propertiesFor ""
    let comment : Comment := ⟨1, "@test"⟩
    let tests := c.testsOfComments ⟨"suite/A.java"⟩ "A.java" [comment] dir
    c.suite.check = .ok () ∧ dir.modules = ["no.such/pkg:opens"] ∧
      (TagEntry.ofComment comment.text).map (·.name) = ["test"] ∧
      tests.map (fun test => (test.error, test.modules)) = [(none, [])] := by
  decide +kernel

end ScanConfig

end TestSelection
