import Mathlib.Data.List.Perm.Basic
import TestSelection.Proofs.Following
import TestSelection.Scan.Files

/-!
The account of a scan. Whatever the order in which paths are given and however they overlap, every
description that a scan comes across is either kept or reported as dropped, and nothing is reported
but what was dropped, what is wrong with a description, a file that could not be scanned and a
folder that could not be opened. The set of URLs seen goes through three nested loops, over paths,
files and tests; each of them does what one loop over all tests at once would do, so the account is
drawn up for that one.
-/

namespace TestSelection

namespace ScanConfig

/-! ### One test after the other -/

/-- The tests of a list, each with those before it, of which some are given. -/
def withEarlier (earlier : List Description) :
    List Description → List (Description × List Description)
  | [] => []
  | test :: rest => (test, earlier) :: withEarlier (earlier ++ [test]) rest

/-- Whether one of the tests before has the URL of a test. -/
def repeatsUrl (t : Description × List Description) : Bool := t.2.any (·.url == t.1.url)

/-- The tests of a list that are the first ones with their URL. -/
def firstsByUrl (tests : List Description) : List Description :=
  ((withEarlier [] tests).filter (!repeatsUrl ·)).map (·.1)

/-- The tests of a list whose URL a test before them has. -/
def repeatsByUrl (tests : List Description) : List Description :=
  ((withEarlier [] tests).filter repeatsUrl).map (·.1)

/-- The set holds the URLs of the tests. -/
def Holds (seen : NameSet) (tests : List Description) : Prop :=
  ∀ url, seen.contains url = true ↔ ∃ test ∈ tests, test.url = url

theorem holds_empty : Holds Table.empty [] := fun url => by simp [Table.contains]

theorem Holds.add {seen : NameSet} {tests : List Description} (h : Holds seen tests)
    (test : Description) : Holds (seen.add test.url) (tests ++ [test]) := by
  intro url
  rw [NameSet.contains_add, Bool.or_eq_true, h url]
  simp [or_and_right, exists_or, or_comm]

/-- If the URL is in the set already, the set holds the URLs of one test more. -/
theorem Holds.append_of_contains {seen : NameSet} {tests : List Description} {test : Description}
    (h : Holds seen tests) (hseen : seen.contains test.url = true) :
    Holds seen (tests ++ [test]) := by
  intro url
  rw [h url]
  obtain ⟨first, hfirst, hurl⟩ := (h test.url).mp hseen
  simp only [List.mem_append, List.mem_singleton]
  constructor
  · rintro ⟨t, ht, rfl⟩
    exact ⟨t, Or.inl ht, rfl⟩
  · rintro ⟨t, ht | rfl, rfl⟩
    · exact ⟨t, ht, rfl⟩
    · exact ⟨first, hfirst, hurl⟩

theorem Holds.repeatsUrl {seen : NameSet} {earlier : List Description} (h : Holds seen earlier)
    (test : Description) : repeatsUrl (test, earlier) = seen.contains test.url := by
  rw [Bool.eq_iff_iff, h test.url, ScanConfig.repeatsUrl]
  simp

theorem keepNew_eq {seen : NameSet} {earlier : List Description} (h : Holds seen earlier)
    (tests : List Description) :
    (keepNew seen tests).2.tests
        = ((withEarlier earlier tests).filter (!repeatsUrl ·)).map (·.1) ∧
      (keepNew seen tests).2.reports
        = ((withEarlier earlier tests).filter repeatsUrl).map fun t => duplicateReport t.1 := by
  -- Along the list, with the set and the tests before kept in step by the invariant.
  induction tests generalizing seen earlier with
  | nil => exact ⟨rfl, rfl⟩
  | cons test rest ih =>
      have hrepeats := h.repeatsUrl test
      rw [keepNew, withEarlier]
      split
      · rename_i hseen
        rw [hseen] at hrepeats
        obtain ⟨htests, hreports⟩ := ih (h.append_of_contains hseen)
        simp [hrepeats, htests, hreports]
      · rename_i hseen
        rw [Bool.eq_false_of_not_eq_true hseen] at hrepeats
        obtain ⟨htests, hreports⟩ := ih (h.add test)
        simp [hrepeats, htests, hreports]

theorem tests_keepNew (tests : List Description) :
    (keepNew Table.empty tests).2.tests = firstsByUrl tests :=
  (keepNew_eq holds_empty tests).1

theorem reports_keepNew (tests : List Description) :
    (keepNew Table.empty tests).2.reports = (repeatsByUrl tests).map duplicateReport := by
  rw [(keepNew_eq holds_empty tests).2, repeatsByUrl, List.map_map]
  rfl

theorem map_fst_withEarlier (earlier tests : List Description) :
    (withEarlier earlier tests).map (·.1) = tests := by
  induction tests generalizing earlier with
  | nil => rfl
  | cons test rest ih => rw [withEarlier, List.map_cons, ih]

/-- Every test is either the first one with its URL or a repeat. -/
theorem perm_firstsByUrl_append (tests : List Description) :
    tests.Perm (firstsByUrl tests ++ repeatsByUrl tests) := by
  have hperm := (List.filter_append_perm (!repeatsUrl ·) (withEarlier [] tests)).map (·.1)
  rw [map_fst_withEarlier, List.map_append] at hperm
  simpa [firstsByUrl, repeatsByUrl] using hperm.symm

theorem url_ne_of_mem_withEarlier {earlier tests : List Description}
    {t : Description × List Description}
    (ht : t ∈ (withEarlier earlier tests).filter (!repeatsUrl ·)) :
    ∀ test ∈ earlier, test.url ≠ t.1.url := by
  induction tests generalizing earlier with
  | nil => exact nomatch ht
  | cons test rest ih =>
      obtain ⟨hmem, hfirst⟩ := List.mem_filter.mp ht
      intro other hother
      rcases List.mem_cons.mp hmem with rfl | hmem
      · simp only [repeatsUrl, Bool.not_eq_true', List.any_eq_false, beq_iff_eq] at hfirst
        exact hfirst other hother
      · exact ih (List.mem_filter.mpr ⟨hmem, hfirst⟩) other (List.mem_append_left _ hother)

theorem nodup_url_firstsByUrl (tests : List Description) :
    ((firstsByUrl tests).map (·.url)).Nodup := by
  have hpairwise : ∀ earlier : List Description,
      ((withEarlier earlier tests).filter (!repeatsUrl ·)).Pairwise
        fun a b => a.1.url ≠ b.1.url := by
    induction tests with
    | nil => exact fun _ => List.Pairwise.nil
    | cons test rest ih =>
        intro earlier
        have hrest := ih (earlier ++ [test])
        rw [withEarlier, List.filter_cons]
        split
        · refine List.pairwise_cons.mpr ⟨fun t ht => ?_, hrest⟩
          exact url_ne_of_mem_withEarlier ht test (by simp)
        · exact hrest
  rw [firstsByUrl, List.map_map]
  exact List.pairwise_map.mpr (hpairwise [])

/-! ### One loop -/

theorem keepNew_append (seen : NameSet) (a b : List Description) :
    keepNew seen (a ++ b) = ((keepNew (keepNew seen a).1 b).1,
      ⟨(keepNew seen a).2.tests ++ (keepNew (keepNew seen a).1 b).2.tests,
        (keepNew seen a).2.reports ++ (keepNew (keepNew seen a).1 b).2.reports⟩) := by
  induction a generalizing seen with
  | nil => rfl
  | cons test rest ih =>
      rw [List.cons_append, keepNew, keepNew]
      split <;> simp [ih]

def testsIn (c : ScanConfig) (tree : FileTree) (file : Path) : List Description :=
  (c.testsOfFile tree file).toOption.getD []

/-- How a file is reported that cannot be scanned. -/
def fileReport? (c : ScanConfig) (tree : FileTree) (file : Path) : Option Diagnostic :=
  match c.testsOfFile tree file with
  | .ok _ => none
  | .error error => some error.diagnostic

variable {c : ScanConfig} {tree : FileTree}

theorem scanFile_eq (file : Path) :
    c.scanFile tree file = ⟨c.testsIn tree file,
      (c.testsIn tree file).filterMap tagReport? ++ (c.fileReport? tree file).toList⟩ := by
  rw [scanFile, testsIn, fileReport?]
  cases c.testsOfFile tree file with
  | ok tests => exact congrArg (ScanResult.mk tests) (List.append_nil _).symm
  | error error => rfl

/-- A scan of files keeps what one loop over all their tests keeps. -/
theorem scanFiles_keeps (seen : NameSet) (files : List Path) :
    (c.scanFiles tree seen files).1 = (keepNew seen (files.flatMap (c.testsIn tree))).1 ∧
      (c.scanFiles tree seen files).2.tests
        = (keepNew seen (files.flatMap (c.testsIn tree))).2.tests := by
  induction files generalizing seen with
  | nil => exact ⟨rfl, rfl⟩
  | cons file rest ih =>
      obtain ⟨hseen, htests⟩ := ih (keepNew seen (c.testsIn tree file)).1
      rw [List.flatMap_cons, keepNew_append, scanFiles, scanFile_eq]
      exact ⟨hseen, congrArg (_ ++ ·) htests⟩

theorem reports_scanFiles (seen : NameSet) (files : List Path) :
    (c.scanFiles tree seen files).2.reports.Perm
      ((keepNew seen (files.flatMap (c.testsIn tree))).2.reports
        ++ (files.flatMap (c.testsIn tree)).filterMap tagReport?
        ++ files.filterMap (c.fileReport? tree)) := by
  induction files generalizing seen with
  | nil => exact List.Perm.nil
  | cons file rest ih =>
      have hrest := List.perm_iff_count.mp (ih (keepNew seen (c.testsIn tree file)).1)
      have hfile : (file :: rest).filterMap (c.fileReport? tree)
          = (c.fileReport? tree file).toList ++ rest.filterMap (c.fileReport? tree) := by
        rw [List.filterMap_cons]
        cases c.fileReport? tree file <;> rfl
      rw [List.flatMap_cons, keepNew_append, scanFiles, scanFile_eq, hfile]
      refine List.perm_iff_count.mpr fun d => ?_
      have hd := hrest d
      simp only [List.filterMap_append, List.count_append] at hd ⊢
      omega

/-! ### Paths -/

/-- The files that a scan of paths visits, in order. -/
def filesVisited (c : ScanConfig) (tree : FileTree) (paths : List Path) : List Path :=
  (paths.flatMap (c.visits tree)).filterMap FileTree.Visit.file?

/-- The tests that a scan of paths comes across, in order. -/
def testsFound (c : ScanConfig) (tree : FileTree) (paths : List Path) : List Description :=
  (c.filesVisited tree paths).flatMap (c.testsIn tree)

theorem filesVisited_cons (path : Path) (rest : List Path) :
    c.filesVisited tree (path :: rest)
      = (c.visits tree path).filterMap FileTree.Visit.file? ++ c.filesVisited tree rest := by
  rw [filesVisited, List.flatMap_cons, List.filterMap_append]
  rfl

theorem testsFound_cons (path : Path) (rest : List Path) :
    c.testsFound tree (path :: rest)
      = ((c.visits tree path).filterMap FileTree.Visit.file?).flatMap (c.testsIn tree)
        ++ c.testsFound tree rest := by
  rw [testsFound, filesVisited_cons, List.flatMap_append]
  rfl

/-- A scan of paths keeps what one loop over all tests that it comes across keeps. -/
theorem tests_scanEach (seen : NameSet) (paths : List Path) :
    (c.scanEach tree seen paths).tests = (keepNew seen (c.testsFound tree paths)).2.tests := by
  induction paths generalizing seen with
  | nil => rfl
  | cons path rest ih =>
      obtain ⟨hseen, htests⟩ := @scanFiles_keeps c tree seen
        ((c.visits tree path).filterMap FileTree.Visit.file?)
      rw [testsFound_cons, keepNew_append, scanEach, ← hseen, ← htests, ← ih]

theorem reports_scanEach (seen : NameSet) (paths : List Path) :
    (c.scanEach tree seen paths).reports.Perm
      ((keepNew seen (c.testsFound tree paths)).2.reports
        ++ (c.testsFound tree paths).filterMap tagReport?
        ++ (c.filesVisited tree paths).filterMap (c.fileReport? tree)
        ++ (paths.flatMap (c.visits tree)).filterMap folderReport?) := by
  induction paths generalizing seen with
  | nil => exact List.Perm.nil
  | cons path rest ih =>
      have hseen := @scanFiles_keeps c tree seen
        ((c.visits tree path).filterMap FileTree.Visit.file?)
      have hfiles := List.perm_iff_count.mp (@reports_scanFiles c tree seen
        ((c.visits tree path).filterMap FileTree.Visit.file?))
      have hrest := List.perm_iff_count.mp (ih (keepNew seen
        (((c.visits tree path).filterMap FileTree.Visit.file?).flatMap (c.testsIn tree))).1)
      rw [testsFound_cons, filesVisited_cons, keepNew_append, scanEach]
      dsimp only
      rw [hseen.1]
      refine List.perm_iff_count.mpr fun d => ?_
      have hd := hfiles d
      have hd' := hrest d
      simp only [List.flatMap_cons, List.filterMap_append, List.count_append] at hd hd' ⊢
      omega

/-- A scan keeps the tests of all files visited, in the order of the visits, of those with one URL
the first one; and it reports each test that it drops, each error in the tags of a test, dropped or
not, each file visited that cannot be scanned and each folder that cannot be opened once, and
nothing else. -/
theorem scanPaths_account (c : ScanConfig) (tree : FileTree) (paths : List Path) :
    (c.scanPaths tree paths).tests = firstsByUrl (c.testsFound tree paths) ∧
      ((c.scanPaths tree paths).tests.map (·.url)).Nodup ∧
      (c.testsFound tree paths).Perm
        ((c.scanPaths tree paths).tests ++ repeatsByUrl (c.testsFound tree paths)) ∧
      (c.scanPaths tree paths).reports.Perm
        ((repeatsByUrl (c.testsFound tree paths)).map duplicateReport
          ++ (c.testsFound tree paths).filterMap tagReport?
          ++ (c.filesVisited tree paths).filterMap (c.fileReport? tree)
          ++ (paths.flatMap (c.visits tree)).filterMap folderReport?) := by
  have htests : (c.scanPaths tree paths).tests = firstsByUrl (c.testsFound tree paths) :=
    (tests_scanEach Table.empty paths).trans (tests_keepNew _)
  have hreports := @reports_scanEach c tree Table.empty paths
  rw [reports_keepNew] at hreports
  rw [htests]
  exact ⟨rfl, nodup_url_firstsByUrl _, perm_firstsByUrl_append _, hreports⟩

/-! ### A folder that cannot be opened -/

theorem mem_walkAmong {enter : String → Bool} {keep : Path → Bool} {p : Path}
    {entries : List (String × FileTree)} {name : String} {sub : FileTree}
    (hsub : (name, sub) ∈ entries) (hname : enter name = true) {visit : FileTree.Visit}
    (h : visit ∈ FileTree.walk enter keep (p.join name) sub) :
    visit ∈ FileTree.walkAmong enter keep p entries := by
  rw [FileTree.walkAmong_eq_flatMap]
  exact List.mem_flatMap.mpr ⟨(name, sub), hsub, by simpa [hname] using h⟩

/-- A folder that may be looked into is visited in vain if its path is too long. -/
theorem closed_mem_visits {path : Path} {entries below : List (String × FileTree)} {name : String}
    (hfind : tree.find path = .ok (.folder entries)) (hsub : (name, .folder below) ∈ entries)
    (hname : c.ignored.contains name = false)
    (hlong : FileTree.piecesOf (path.join name) = .error .nameTooLong) :
    .closed (path.join name) .nameTooLong ∈ c.visits tree path := by
  obtain ⟨hlocate, -⟩ := FileTree.find_eq_ok_iff.mp hfind
  obtain ⟨pieces, hpieces, -⟩ := bind_eq_ok.mp hlocate
  rw [visits, hfind]
  dsimp only
  rw [FileTree.walk, hpieces]
  refine mem_walkAmong hsub (by rw [hname]; rfl) ?_
  rw [FileTree.walk, hlong]
  exact List.mem_singleton.mpr rfl

/-- A suite in the folder `s`, with one test in a folder below it. -/
def crampedSuite : FileTree :=
  .folder [("s", .folder [("deep", .folder [("A.java", .file (.text "/* @test */"))])])]

theorem closed_mem_visits_crampedSuite {n : Nat} (hn : n = 2045) :
    .closed ((Path.idle ⟨"/s"⟩ n).join "deep") .nameTooLong
      ∈ (forSuite ⟨"/s"⟩ default).visits crampedSuite (Path.idle ⟨"/s"⟩ n) := by
  have hsize : (Path.idle ⟨"/s"⟩ n).text.utf8ByteSize = 2 + 2 * n := Path.size_idle ⟨"/s"⟩ n
  have hmax : FileTree.maxFollowedBytes = 4095 := rfl
  have hname : "deep".utf8ByteSize = 4 := by decide
  have hsuite : crampedSuite.find ⟨"/s"⟩
      = .ok (.folder [("deep", .folder [("A.java", .file (.text "/* @test */"))])]) := rfl
  have hfind := Path.find_idle (n := n) hsuite (by omega)
  refine closed_mem_visits hfind List.mem_cons_self (by decide) ?_
  exact FileTree.piecesOf_join_of_lt hfind (by decide) (by omega)

/-- The folder below the suite is reported, though it is no file that cannot be scanned: the suite
is spelled at such length that the path of what is below it is too long. -/
theorem reports_crampedSuite :
    let c := forSuite ⟨"/s"⟩ default
    let paths := [Path.idle ⟨"/s"⟩ 2045]
    ¬ (c.scanPaths crampedSuite paths).reports.Perm
      ((repeatsByUrl (c.testsFound crampedSuite paths)).map duplicateReport
        ++ (c.testsFound crampedSuite paths).filterMap tagReport?
        ++ (c.filesVisited crampedSuite paths).filterMap (c.fileReport? crampedSuite)) := by
  intro c paths hperm
  have hreports := @reports_scanEach c crampedSuite Table.empty paths
  rw [reports_keepNew] at hreports
  have hlength := (hperm.symm.trans hreports).length_eq
  have hvisit := @closed_mem_visits_crampedSuite 2045 rfl
  have hpos := List.length_pos_of_mem (List.mem_filterMap.mpr
    ⟨_, List.mem_flatMap.mpr ⟨_, List.mem_singleton.mpr rfl, hvisit⟩, rfl⟩ :
    _ ∈ (paths.flatMap (c.visits crampedSuite)).filterMap folderReport?)
  simp only [List.length_append] at hlength hpos
  omega

end ScanConfig

end TestSelection
