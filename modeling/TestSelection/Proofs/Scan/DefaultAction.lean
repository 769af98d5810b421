import TestSelection.Proofs.Path
import TestSelection.Proofs.Scan.Ids
import TestSelection.Proofs.Suite.Inheritance
import TestSelection.Proofs.Tag.Independence
import TestSelection.Scan.Files

/-!
Default actions. A test without actions is run by the runner of its directory, on the class that the
file is named for from the runner's root on, or else as a program of its own. The root is taken off
the path of the file as a text: what inheritance finds is always made of the first names on the way
to the file, so what is left is made of the others, however the names repeat each other.
-/

namespace TestSelection

open SuiteConfig

/-! ### The path of a file -/

namespace Path

variable {p : Path} {names : List (List Char)} {name : List Char}

theorem joinPieces_append_end (names : List (List Char)) (name ending : List Char) :
    joinPieces (names ++ [name ++ ending]) = joinPieces (names ++ [name]) ++ ending := by
  by_cases h : names = []
  · subst h
    simp [joinPieces]
  · rw [joinPieces, joinPieces, Chars.intercalate_append_singleton h,
      Chars.intercalate_append_singleton h, List.append_assoc, List.cons_append]

theorem getLast?_splitAt_joinPieces (hname : '/' ∉ name) (names : List (List Char)) :
    (Chars.splitAt '/' (joinPieces (names ++ [name]))).getLast? = some name := by
  by_cases h : names = []
  · subst h
    simp [joinPieces, Chars.splitAt_of_notMem hname]
  · rw [joinPieces, Chars.intercalate_append_singleton h, splitAt_append hname,
      List.getLast?_concat]

theorem head?_joinPieces_ne (h : ∀ name ∈ names, name ≠ [] ∧ '/' ∉ name) :
    (joinPieces names).head? ≠ some '/' := by
  cases names with
  | nil => exact nofun
  | cons first rest =>
      obtain ⟨hnil, hslash⟩ := h first List.mem_cons_self
      obtain ⟨c, first, rfl⟩ := List.exists_cons_of_ne_nil hnil
      have hfront := Chars.intercalate_append_cons '/' [c] first rest
      rw [List.singleton_append] at hfront
      rw [joinPieces, hfront, List.singleton_append, List.head?_cons]
      rintro hc
      exact hslash (Option.some.inj hc ▸ List.mem_cons_self)

/-- The last part of a path is that of a text that its last parts are joined to, if it is a name
there. -/
theorem fileName?_of_joinPieces {front below : List PathPart} (hp : p.parts = front ++ below)
    (hnil : name ≠ []) (hhere : name ≠ ['.']) (hup : name ≠ ['.', '.']) (hname : '/' ∉ name)
    (h : joinPieces (below.map (·.text.toList)) = joinPieces (names ++ [name])) :
    p.fileName? = some (String.ofList name) := by
  have hlast := getLast?_splitAt_joinPieces hname names
  rw [← h] at hlast
  rcases List.eq_nil_or_concat' below with rfl | ⟨before, last, rfl⟩
  · exact absurd (Option.some.inj hlast).symm hnil
  rw [List.map_append, List.map_singleton] at hlast
  have hroot : last ≠ .root := by
    rintro rfl
    have hslash := joinPieces_append_end (before.map (·.text.toList)) [] ['/']
    rw [List.nil_append] at hslash
    rw [show PathPart.root.text.toList = ['/'] from rfl, hslash,
      splitAt_append List.not_mem_nil, List.getLast?_concat] at hlast
    exact hnil (Option.some.inj hlast).symm
  have hmem : last ∈ p.parts := by simp [hp]
  rw [getLast?_splitAt_joinPieces (slash_notMem_text hmem hroot)] at hlast
  have htext : last.text.toList = name := Option.some.inj hlast
  rw [fileName?, hp, ← List.append_assoc, List.getLast?_concat]
  cases last with
  | root => exact absurd rfl hroot
  | here => exact absurd htext.symm hhere
  | up => exact absurd htext.symm hup
  | name n => rw [← htext, PathPart.text, String.ofList_toList]

end Path

namespace ScanConfig

variable {c : ScanConfig} {file : Path} {names : List (List Char)} {name : List Char}

theorem fileName?_of_relativePath (hnil : name ≠ []) (hhere : name ≠ ['.'])
    (hup : name ≠ ['.', '.']) (hname : '/' ∉ name)
    (h : c.relativePath file = .ok (dirOf (names ++ [name]))) :
    file.fileName? = some (String.ofList name) := by
  rw [relativePath, Path.partsWithin?] at h
  split_ifs at h with hwithin
  obtain ⟨parts, hparts⟩ := Path.isWithin_iff.mp hwithin
  have htext := congrArg String.toList (Except.ok.inj h)
  rw [← hparts, List.drop_left, dirOf, String.toList_ofList] at htext
  have hjoin : Path.joinPieces (parts.map (·.text.toList)) = Path.joinPieces (names ++ [name]) := by
    rw [← htext, String.toList_intercalate, List.map_map]
    rfl
  exact Path.fileName?_of_joinPieces hparts.symm hnil hhere hup hname hjoin

theorem directoryOf_dirOf (hname : '/' ∉ name) (names : List (List Char)) :
    directoryOf (dirOf (names ++ [name])) = dirOf names := by
  rw [directoryOf, Text.cutLast, dirOf, String.toList_ofList, Path.joinPieces]
  by_cases h : names = []
  · subst h
    rw [List.nil_append, List.intercalate_singleton, Chars.cutLast_of_notMem hname]
    rfl
  · rw [Chars.intercalate_append_singleton h, Chars.cutLast_append hname]
    rfl

theorem testsOfFile_eq {tree : FileTree} {relative source : String} {style : CommentStyle}
    (hpath : c.relativePath file = .ok relative) (hstyle : c.registry.styleOf? file = some style)
    (hread : tree.readText file = .ok source) :
    c.testsOfFile tree file = .ok (c.testsOfSource file relative source style
      (c.suite.propertiesFor (directoryOf relative))) := by
  simp only [testsOfFile, hpath, hstyle, hread]
  rfl

end ScanConfig

/-- How a runner's action is named. -/
def Runner.actionName : Runner → String
  | .testng => "testng"
  | .junit => "junit"

namespace Declaration

variable {entries : List TagEntry} {above below names : List (List Char)}
  {stem : List Char} {root rest : String}

/-! ### The class of a file -/

/-- The name of the class that a file holds, by the directories on the way to it and its own name
without what follows the last point. -/
def className (names : List (List Char)) (stem : List Char) : String :=
  ".".intercalate ((names ++ [stem]).map String.ofList)

theorem runnerClass_top (h : ∀ name ∈ names, '/' ∉ name) (hstem : '/' ∉ stem) :
    runnerClass (dirOf (names ++ [stem ++ ".java".toList])) "" = className names stem := by
  have hbefore : Text.before? ".java" (dirOf (names ++ [stem ++ ".java".toList]))
      = some (dirOf (names ++ [stem])) := by
    rw [Text.before?_eq_some_iff, dirOf, Path.joinPieces_append_end, String.ofList_append,
      String.ofList_toList, dirOf]
  have hslash : ∀ name ∈ names ++ [stem], '/' ∉ name :=
    List.forall_mem_append.mpr ⟨h, List.forall_mem_singleton.mpr hstem⟩
  have hempty : "".isEmpty = true := rfl
  rw [runnerClass]
  simp only [hempty, if_true, hbefore, Option.getD_some]
  rw [Text.swap, dirOf, String.toList_ofList, Path.joinPieces, Chars.map_replace_intercalate hslash,
    ← String.toList_inj, className, String.toList_intercalate, List.map_map, String.toList_ofList]
  simp [Function.comp_def]

/-- A root is taken off, with the slash behind it. -/
theorem runnerClass_append (hroot : root ≠ "") (hrest : rest.toList.head? ≠ some '/') :
    runnerClass (root ++ "/" ++ rest) root = runnerClass rest "" := by
  have hempty : root.isEmpty = false := by simpa using hroot
  have hafter : Text.after? root (root ++ "/" ++ rest) = some ("/" ++ rest) :=
    Text.after?_eq_some_iff.mpr (String.append_assoc)
  have hdrop : Text.dropFront '/' ("/" ++ rest) = rest := by
    have hslash : ∀ c ∈ rest.toList.head?, (c == '/') = false := by
      rintro c hc
      exact beq_eq_false_iff_ne.mpr fun heq => hrest (heq ▸ hc)
    have hkeep := dropWhile_of_head? hslash
    rw [Text.dropFront, String.toList_append, Chars.dropFront]
    exact (congrArg String.ofList hkeep).trans String.ofList_toList
  rw [runnerClass, runnerClass]
  simp only [hempty, hafter, hdrop]
  rfl

/-- However the names repeat each other, those of the root are taken off and no others. -/
theorem runnerClass_dirOf (h : ∀ name ∈ above ++ below, IsPlainName name) (hstem : '/' ∉ stem) :
    runnerClass (dirOf (above ++ below ++ [stem ++ ".java".toList])) (dirOf above)
      = className below stem := by
  obtain ⟨habove, hbelow⟩ := List.forall_mem_append.mp h
  have htop := runnerClass_top (fun name hname => (hbelow name hname).noSlash) hstem
  by_cases hnil : above = []
  · subst hnil
    exact htop
  · have hroot : dirOf above ≠ "" := by
      intro hempty
      have hjoin : Path.joinPieces above = [] := String.ofList_injective hempty
      exact hnil ((Chars.intercalate_eq_nil_iff '/' fun name hname =>
        (habove name hname).ne_nil).mp hjoin)
    have hpath : dirOf (above ++ below ++ [stem ++ ".java".toList])
        = dirOf above ++ "/" ++ dirOf (below ++ [stem ++ ".java".toList]) := by
      rw [List.append_assoc, dirOf, Path.joinPieces, Chars.intercalate_append hnil (by simp),
        List.append_cons, String.ofList_append, String.ofList_append]
      rfl
    have hnames : ∀ name ∈ below ++ [stem ++ ".java".toList], name ≠ [] ∧ '/' ∉ name := by
      refine List.forall_mem_append.mpr ⟨fun name hname => ?_, List.forall_mem_singleton.mpr ?_⟩
      · exact ⟨(hbelow name hname).ne_nil, (hbelow name hname).noSlash⟩
      · simpa using hstem
    rw [hpath, runnerClass_append hroot, htop]
    rw [dirOf, String.toList_ofList]
    exact Path.head?_joinPieces_ne hnames

/-! ### The action of a file -/

theorem actions_eq_nil (rules : TagRules) (h : ∀ e ∈ entries, isAction e = false) :
    (ofEntries rules entries).actions = [] := by
  rw [actions_ofEntries, List.flatMap_eq_nil_iff]
  exact fun e he => if_neg (by simp [h e he])

theorem cutLast_java (stem : List Char) :
    Text.cutLast '.' (String.ofList (stem ++ ".java".toList))
      = some (String.ofList stem, "java") := by
  have hcut : Chars.cutLast '.' (stem ++ ".java".toList) = some (stem, "java".toList) :=
    Chars.cutLast_append (by decide) stem
  rw [Text.cutLast, String.toList_ofList, hcut]
  rfl

theorem defaultAction?_of_rootOf {dir : DirectoryProperties} {runner : Runner}
    (hone : dir.testngRoot = none ∨ dir.junitRoot = none) (h : dir.rootOf runner = some root)
    (stem : List Char) (relativePath : String) :
    defaultAction? (String.ofList (stem ++ ".java".toList)) relativePath dir
      = some (.plain runner.actionName (runnerClass relativePath root) false) := by
  rw [defaultAction?, cutLast_java]
  cases runner with
  | testng =>
      have htestng : dir.testngRoot = some root := h
      simp only [htestng, Runner.actionName]
  | junit =>
      have hjunit : dir.junitRoot = some root := h
      have htestng : dir.testngRoot = none := by simpa [hjunit] using hone
      simp only [htestng, hjunit, Runner.actionName]

theorem defaultAction?_of_not_hasRunner {dir : DirectoryProperties} (h : dir.hasRunner = false)
    (stem : List Char) (relativePath : String) :
    defaultAction? (String.ofList (stem ++ ".java".toList)) relativePath dir
      = some (.plain "main" (String.ofList stem) false) := by
  obtain ⟨htestng, hjunit⟩ : dir.testngRoot = none ∧ dir.junitRoot = none := by
    simpa [DirectoryProperties.hasRunner] using h
  rw [defaultAction?, cutLast_java]
  simp only [htestng, hjunit]

end Declaration

namespace ScanConfig

/-- A test without actions, in a file of a directory of plain names. If the directory has a runner,
the root of the runner is the directory or one above it, and the only action runs the class that is
named by what lies below the root; else the only action is to run the file. -/
theorem run_testsOfFile (c : ScanConfig) {tree : FileTree} {file : Path}
    {names : List (List Char)} {stem : List Char} {style : CommentStyle} {source : String}
    (hnames : ∀ name ∈ names, IsPlainName name) (hstem : '/' ∉ stem)
    (hpath : c.relativePath file = .ok (dirOf (names ++ [stem ++ ".java".toList])))
    (hstyle : c.registry.styleOf? file = some style) (hread : tree.readText file = .ok source) :
    let dir := c.suite.propertiesFor (dirOf names)
    ∃ tests, c.testsOfFile tree file = .ok tests ∧
      List.Forall₂ (fun (comment : Comment) (test : Description) =>
          (∀ e ∈ TagEntry.ofComment comment.text, Declaration.isAction e = false) →
            (∀ runner root, dir.rootOf runner = some root →
              ∃ above below, names = above ++ below ∧ root = dirOf above ∧
                test.run
                  = [.plain runner.actionName (Declaration.className below stem) false]) ∧
            (dir.hasRunner = false → test.run = [.plain "main" (String.ofList stem) false]))
        ((style.extract source).filter Comment.declaresTest) tests := by
  intro dir
  have hslash : '/' ∉ stem ++ ".java".toList := by simpa using hstem
  have hlong : ∀ name : List Char, name.length < 5 → stem ++ ".java".toList ≠ name := by
    rintro name hlt rfl
    simp at hlt
  have hfile : file.fileName? = some (String.ofList (stem ++ ".java".toList)) :=
    fileName?_of_relativePath (hlong _ (by decide)) (hlong _ (by decide)) (hlong _ (by decide))
      hslash hpath
  have hinherits : c.suite.Inherits names dir := inherits_propertiesFor hnames
  have htests := testsOfFile_eq hpath hstyle hread
  rw [directoryOf_dirOf hslash] at htests
  refine ⟨_, htests,
    (c.forall₂_testsOfComments file _ _ dir).imp fun comment test htest hplain => ?_⟩
  have hrun : test.run = (Declaration.defaultAction? (String.ofList (stem ++ ".java".toList))
      (dirOf (names ++ [stem ++ ".java".toList])) dir).toList := by
    rw [htest, Declaration.run_describe, if_pos (Declaration.actions_eq_nil _ hplain), hfile,
      Option.getD_some]
  refine ⟨fun runner root hroot => ?_, fun hnone => ?_⟩
  · obtain ⟨above, hfirst, rfl⟩ := (hinherits.runner runner root).mp hroot
    obtain ⟨below, rfl⟩ := hfirst.isPrefix
    rw [Declaration.defaultAction?_of_rootOf hinherits.oneRunner hroot stem,
      Declaration.runnerClass_dirOf hnames hstem] at hrun
    exact ⟨above, below, rfl, rfl, hrun⟩
  · rw [Declaration.defaultAction?_of_not_hasRunner hnone stem] at hrun
    exact hrun

/-- A file of a directory whose names repeat those of the root, in a suite where the name of another
root is the beginning of the first of them. -/
theorem run_testsOfFile_repeated :
    let suite : SuiteConfig :=
      { SuiteConfig.default with testngDirs := ["ng/p"], junitDirs := ["n"] }
    let c := forSuite ⟨"suite"⟩ suite
    let tree : FileTree := .folder [("suite", .folder [("ng", .folder [("p", .folder [("ng",
      .folder [("p", .folder [("A.java", .file (.text "/* @test */"))])])])])])]
    ∃ test, c.testsOfFile tree ⟨"suite/ng/p/ng/p/A.java"⟩ = .ok [test] ∧
      test.run = [.plain "testng" "ng.p.A" false] := by
  intro suite c tree
  let names : List (List Char) := ["ng", "p", "ng", "p"].map String.toList
  have hnames : ∀ name ∈ names, IsPlainName name := by decide +kernel
  have hpath : c.relativePath ⟨"suite/ng/p/ng/p/A.java"⟩
      = .ok (dirOf (names ++ ["A".toList ++ ".java".toList])) := by decide +kernel
  have hstyle : c.registry.styleOf? ⟨"suite/ng/p/ng/p/A.java"⟩ = some .block := by decide +kernel
  have hread : tree.readText ⟨"suite/ng/p/ng/p/A.java"⟩ = .ok "/* @test */" := by decide +kernel
  have hroot : (c.suite.propertiesFor (dirOf names)).rootOf .testng = some "ng/p" := by
    decide +kernel
  have hcomments : (CommentStyle.block.extract "/* @test */").filter Comment.declaresTest
      = [⟨1, "@test"⟩] := by decide +kernel
  obtain ⟨tests, htests, hall⟩ :=
    c.run_testsOfFile hnames (by decide) hpath hstyle hread
  rw [hcomments, List.forall₂_cons_left_iff] at hall
  obtain ⟨test, rest, htest, hrest, rfl⟩ := hall
  obtain rfl := List.forall₂_nil_left_iff.mp hrest
  obtain ⟨above, below, hcut, habove, hrun⟩ := (htest (by decide +kernel)).1 .testng "ng/p" hroot
  have hplain : ∀ name ∈ above, IsPlainName name :=
    fun name hname => hnames name (hcut ▸ List.mem_append_left _ hname)
  obtain rfl : above = ["ng", "p"].map String.toList := by
    rw [← dirComponents_dirOf hplain, ← habove]
    decide +kernel
  have hnames : ["ng", "p"].map String.toList ++ ["ng", "p"].map String.toList
      = ["ng", "p"].map String.toList ++ below := hcut
  obtain rfl := List.append_cancel_left hnames
  refine ⟨test, htests, hrun.trans ?_⟩
  decide +kernel

end ScanConfig

end TestSelection
