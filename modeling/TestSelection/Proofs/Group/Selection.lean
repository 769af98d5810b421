import TestSelection.Proofs.Group.Clause
import TestSelection.Proofs.Group.Resolution
import TestSelection.Proofs.Group.Subtraction
import TestSelection.Proofs.Group.Wildcard

/-!
What a group selects. Its entries give paths to add and paths to take away, where an included group
stands for its own files. Of the paths to add only the topmost ones count, and from them the group
leads to everything that is not at or below a path to take away.
-/

namespace TestSelection

open TestSelection.Path

namespace GroupSet

variable {s : GroupSet} {tree : FileTree}

/-- The paths that the entries of a list stand for: those of the entries that add, or of the entries
that take away. -/
def pathsWith (tree : FileTree) (filesOf : String → List Path) (exclude : Bool)
    (entries : List GroupEntry) : List Path :=
  (entries.filter (·.exclude == exclude)).flatMap (entryPaths tree filesOf)

theorem flatMap_filter_sidesOf (filesOf : String → List Path) (exclude : Bool)
    (entries : List GroupEntry) :
    ((sidesOf tree filesOf entries).filter (·.1 == exclude)).flatMap (·.2)
      = pathsWith tree filesOf exclude entries := by
  rw [sidesOf, List.filter_map, List.flatMap_map]
  rfl

/-- A group as what is topmost among the paths to add, with the paths to take away taken from it. -/
theorem combine_sidesOf (s : GroupSet) (filesOf : String → List Path) (entries : List GroupEntry) :
    s.combine tree (sidesOf tree filesOf entries)
      = orderedSet ((PathSet.ofList (pathsWith tree filesOf false entries)).flatMap fun p =>
          s.rules.subtract tree p (orderedSet (pathsWith tree filesOf true entries))) := by
  rw [combine, ← flatMap_filter_sidesOf, ← flatMap_filter_sidesOf]
  simp

theorem forall_mem_orderedSet {paths : List Path} {f : Path} :
    (∀ x ∈ orderedSet paths, ¬ f.isWithin x = true) ↔ ∀ x ∈ paths, ¬ f.isWithin x = true := by
  constructor
  · intro h x hx hfx
    obtain ⟨x', hfirst, heq⟩ := exists_firstIn hx
    refine h x' (mem_orderedSet.mpr hfirst) (isWithin_trans hfx (isWithin_of_parts_eq heq.symm))
  · exact fun h x hx => h x (mem_orderedSet.mp hx).mem

section

variable {filesOf : String → List Path} {entries : List GroupEntry}

theorem pairwise_apart_flatMap_subtract (htree : tree.Proper) (r : PathRules)
    (paths excluded : List Path) :
    ((PathSet.ofList paths).flatMap fun p => r.subtract tree p excluded).Pairwise Apart := by
  refine List.pairwise_flatMap.mpr ⟨fun p _ => r.pairwise_apart_subtract htree p excluded, ?_⟩
  refine (PathSet.pairwise_apart_ofList paths).imp fun hpq x hx y hy => ?_
  exact hpq.of_isWithin (PathRules.isWithin_of_mem_subtract htree hx)
    (PathRules.isWithin_of_mem_subtract htree hy)

/-- Nothing is lost when the files of a group are put in order. -/
theorem mem_combine (htree : tree.Proper) {q : Path} :
    q ∈ s.combine tree (sidesOf tree filesOf entries) ↔
      ∃ p, Topmost (pathsWith tree filesOf false entries) p ∧
        q ∈ s.rules.subtract tree p (orderedSet (pathsWith tree filesOf true entries)) := by
  have hapart := pairwise_apart_flatMap_subtract htree s.rules
    (pathsWith tree filesOf false entries) (orderedSet (pathsWith tree filesOf true entries))
  rw [combine_sidesOf, mem_orderedSet_of_pairwise_apart hapart, List.mem_flatMap]
  simp only [PathSet.mem_ofList]

theorem pairwise_apart_combine (htree : tree.Proper) :
    (s.combine tree (sidesOf tree filesOf entries)).Pairwise Apart := by
  rw [combine_sidesOf]
  exact pairwise_apart_orderedSet (pairwise_apart_flatMap_subtract htree _ _ _)

theorem exists_reaches_combine (htree : tree.Proper) {f : Path} :
    (∃ q ∈ s.combine tree (sidesOf tree filesOf entries), s.rules.Reaches tree q f) ↔
      (∃ p, Topmost (pathsWith tree filesOf false entries) p ∧ s.rules.Reaches tree p f) ∧
        ∀ x ∈ pathsWith tree filesOf true entries, ¬ f.isWithin x = true := by
  have hsubtract : ∀ p, (∃ q ∈ s.rules.subtract tree p
      (orderedSet (pathsWith tree filesOf true entries)), s.rules.Reaches tree q f) ↔
      s.rules.Reaches tree p f ∧ ∀ x ∈ pathsWith tree filesOf true entries,
        ¬ f.isWithin x = true := fun p => by
    rw [PathRules.exists_reaches_subtract htree, forall_mem_orderedSet]
  simp only [mem_combine htree]
  constructor
  · rintro ⟨q, ⟨p, hp, hq⟩, h⟩
    obtain ⟨hreaches, hexcluded⟩ := (hsubtract p).mp ⟨q, hq, h⟩
    exact ⟨⟨p, hp, hreaches⟩, hexcluded⟩
  · rintro ⟨⟨p, hp, hreaches⟩, hexcluded⟩
    obtain ⟨q, hq, h⟩ := (hsubtract p).mpr ⟨hreaches, hexcluded⟩
    exact ⟨q, ⟨p, hp, hq⟩, h⟩

end

/-! ### What entries stand for -/

/-- The paths that a target stands for. A path without a star in its last part stands for itself and
one with a star for the entries of its parent whose names have the form of that part; a group stands
for the files that it is said to have, if it is asked for after the same calls. -/
inductive StandsFor (s : GroupSet) (tree : FileTree) (calls : List Call) :
    GroupTarget → List Path → Prop
  | itself {p : Path}
      (hstar : ∀ name, p.parts.getLast? = some (.name name) → '*' ∉ name.toList) :
      StandsFor s tree calls (.path p) [p]
  | entries {p parent : Path} {pattern : String} {es : List (String × FileTree)}
      {paths : List Path} (hparent : p.parent? = some parent)
      (hparts : p.parts = parent.parts ++ [.name pattern]) (hstar : '*' ∈ pattern.toList)
      (hfolder : tree.find parent = .ok (.folder es))
      (hpaths : ∀ q, q ∈ paths ↔
        ∃ e ∈ es, Wildcard.Fills pattern.toList e.1.toList ∧ q = parent.join e.1) :
      StandsFor s tree calls (.path p) paths
  | group {name : String} {kept : KeptFiles}
      (h : (s.filesFor tree (s.memoAfter tree calls) name).1 = .ok kept) :
      StandsFor s tree calls (.group name) kept.files

section

variable {calls : List Call} {paths : List Path} {p parent : Path}

theorem StandsFor.eq_files {name : String} (h : s.StandsFor tree calls (.group name) paths) :
    ∃ kept, (s.filesFor tree (s.memoAfter tree calls) name).1 = .ok kept ∧ paths = kept.files := by
  cases h with
  | group hkept => exact ⟨_, hkept, rfl⟩

theorem StandsFor.eq_singleton (h : s.StandsFor tree calls (.path p) paths)
    (hp : p.hasWildcard = false) : paths = [p] := by
  cases h with
  | itself => rfl
  | entries _ hparts hstar =>
      refine absurd (hasWildcard_iff.mpr ⟨_, ?_, hstar⟩) (ne_true_of_eq_false hp)
      rw [hparts, List.getLast?_concat]

theorem StandsFor.mem_iff {pattern : String} {es : List (String × FileTree)}
    (h : s.StandsFor tree calls (.path p) paths) (hparent : p.parent? = some parent)
    (hpattern : p.parts.getLast? = some (.name pattern)) (hstar : '*' ∈ pattern.toList)
    (hfolder : tree.find parent = .ok (.folder es)) (q : Path) :
    q ∈ paths ↔ ∃ e ∈ es, Wildcard.Fills pattern.toList e.1.toList ∧ q = parent.join e.1 := by
  cases h with
  | itself hliteral => exact absurd hstar (hliteral pattern hpattern)
  | entries hparent' hparts' _ hfolder' hpaths =>
      obtain rfl := Option.some.inj (hparent'.symm.trans hparent)
      rw [hparts', List.getLast?_concat] at hpattern
      obtain rfl := PathPart.name.inj (Option.some.inj hpattern)
      obtain rfl := FileTree.folder.inj (Except.ok.inj (hfolder'.symm.trans hfolder))
      exact hpaths q

theorem standsFor_pathsOf (htree : tree.Proper) (hp : Group.isThere tree p = true) :
    s.StandsFor tree calls (.path p) (pathsOf tree p) := by
  rw [pathsOf]
  split
  · rename_i hwildcard
    obtain ⟨pattern, hlast, hstar⟩ := hasWildcard_iff.mp hwildcard
    obtain ⟨parent, hparent, hparts⟩ := exists_parent? hlast
    have hfolder : tree.hasFolder parent = true := by
      simpa [Group.isThere, hwildcard, hparent] using hp
    obtain ⟨es, hfind⟩ := FileTree.hasFolder_iff.mp hfolder
    have hpattern : p.fileName? = some pattern := by rw [fileName?, hlast]
    exact .entries hparent hparts hstar hfind fun q =>
      mem_expandWildcard htree hparent hpattern hfind
  · rename_i hliteral
    exact .itself fun name hlast hstar => hliteral (hasWildcard_iff.mpr ⟨name, hlast, hstar⟩)

end

/-- A valid group of a loaded set leads to exactly what its topmost paths to add lead to and no path
to take away is at or above, and its files lie apart. -/
theorem reaches_filesFor_iff {tree : FileTree} (htree : tree.Proper) (root : Path)
    (rules : PathRules) (files : List GroupFile) (calls : List Call) {name : String} {g : Group}
    (hg : (load tree root rules files).1.groups.get? name = some g) (hvalid : g.isValid = true) :
    let s := (load tree root rules files).1
    ∃ (kept : KeptFiles) (pathsFor : GroupEntry → List Path),
      (s.filesFor tree (s.memoAfter tree calls) name).1 = .ok kept ∧
      (∀ e ∈ g.entries, s.StandsFor tree calls e.target (pathsFor e)) ∧
      (∀ f, (∃ q ∈ kept.files, rules.Reaches tree q f) ↔
        (∃ p, Topmost ((g.entries.filter (·.exclude == false)).flatMap pathsFor) p ∧
          rules.Reaches tree p f) ∧
          ∀ x ∈ (g.entries.filter (·.exclude == true)).flatMap pathsFor,
            ¬ f.isWithin x = true) ∧
      kept.files.Pairwise Apart := by
  intro s
  have hs : s.groups.Checked := Groups.checked_marked (Groups.read tree root files)
  have hmemo : s.MemoSound tree (s.memoAfter tree calls) := memoSound_memoAfter hs calls
  obtain ⟨kept, hok, hkept, -⟩ := answers_filesFor hs ⟨g, hg, hvalid⟩ hmemo
  obtain ⟨filesOf, hfilesOf, hfiles⟩ := hkept.exists_of_get? hg
  have hstands : ∀ e ∈ g.entries,
      s.StandsFor tree calls e.target (entryPaths tree filesOf e) := by
    intro e he
    rw [entryPaths]
    cases htarget : e.target with
    | path p => exact standsFor_pathsOf htree (isThere_of_get?_load hg he htarget)
    | group b =>
        have hb : b ∈ g.references := Group.mem_references.mpr ⟨e, he, htarget⟩
        have hvalid' : s.groups.Valid b := hs.valid_of_refers ⟨g, hg, hvalid⟩ ⟨g, hg, hb⟩
        obtain ⟨kept', hok', hkept', -⟩ := answers_filesFor hs hvalid' hmemo
        have hfilesOf' : filesOf b = kept'.files := (hfilesOf b hb).unique hkept'
        change s.StandsFor tree calls (.group b) (filesOf b)
        rw [hfilesOf']
        exact .group hok'
  refine ⟨kept, entryPaths tree filesOf, hok, hstands, ?_⟩
  rw [hfiles]
  exact ⟨fun f => exists_reaches_combine htree, pairwise_apart_combine htree⟩

/-- Two folders, and a group of the sources in one of them but the first, with a group of the other
folder. -/
def twoFolders : FileTree :=
  .folder [
    ("a", .folder [("x.java", .file (.text "")), ("y.java", .file (.text "")),
      ("z.sh", .file (.text ""))]),
    ("b", .folder [("w.java", .file (.text ""))]),
    ("groups", .file (.text "g = a/*.java :h -a/x.java\nh = b"))]

theorem proper_twoFolders : twoFolders.Proper := FileTree.proper_of_isProper (by decide)

theorem mem_of_standsFor_sources {s : GroupSet} {paths : List Path}
    (h : s.StandsFor twoFolders [] (.path ⟨"a/*.java"⟩) paths) (q : Path) :
    q ∈ paths ↔ q = ⟨"a/x.java"⟩ ∨ q = ⟨"a/y.java"⟩ := by
  have hparent : (⟨"a/*.java"⟩ : Path).parent? = some ⟨"a"⟩ := by decide +kernel
  have hpattern : (⟨"a/*.java"⟩ : Path).parts.getLast? = some (.name "*.java") := by
    decide +kernel
  have hfolder : twoFolders.find ⟨"a"⟩ = .ok (.folder [("x.java", .file (.text "")),
    ("y.java", .file (.text "")), ("z.sh", .file (.text ""))]) := rfl
  have hfills (name : String) : Wildcard.Fills "*.java".toList name.toList ↔
      ".java".toList <:+ name.toList := Wildcard.fills_star_iff_isSuffix (by decide)
  have hx : ".java".toList <:+ "x.java".toList := by decide
  have hy : ".java".toList <:+ "y.java".toList := by decide
  have hz : ¬ ".java".toList <:+ "z.sh".toList := by decide
  have hjoin : (⟨"a"⟩ : Path).join "x.java" = ⟨"a/x.java"⟩ ∧
      (⟨"a"⟩ : Path).join "y.java" = ⟨"a/y.java"⟩ := by decide +kernel
  rw [h.mem_iff hparent hpattern (by decide) hfolder]
  simp only [hfills, List.exists_mem_cons_iff, List.not_mem_nil, hx, hy, hz, hjoin, true_and,
    false_and, exists_false, or_false]

/-- The group leads to the second source and to what is in the other folder, but neither to the
source that it takes away nor to the file that is no source. -/
theorem reaches_filesFor_twoFolders :
    ∃ kept, let s := (load twoFolders ⟨"."⟩ (.new [] []) [⟨⟨"groups"⟩, false⟩]).1
      (s.filesFor twoFolders (s.memoAfter twoFolders []) "g").1 = .ok kept ∧
      (∃ q ∈ kept.files, (PathRules.new [] []).Reaches twoFolders q ⟨"a/y.java"⟩) ∧
      (∃ q ∈ kept.files, (PathRules.new [] []).Reaches twoFolders q ⟨"b/w.java"⟩) ∧
      (¬ ∃ q ∈ kept.files, (PathRules.new [] []).Reaches twoFolders q ⟨"a/x.java"⟩) ∧
      ¬ ∃ q ∈ kept.files, (PathRules.new [] []).Reaches twoFolders q ⟨"a/z.sh"⟩ := by
  let g : Group := ⟨[⟨false, .path ⟨"a/*.java"⟩⟩, ⟨false, .group "h"⟩,
    ⟨true, .path ⟨"a/x.java"⟩⟩], [⟨"groups"⟩], []⟩
  let s := (load twoFolders ⟨"."⟩ (.new [] []) [⟨⟨"groups"⟩, false⟩]).1
  have hg : s.groups.get? "g" = some g := by decide +kernel
  have hh : (s.filesFor twoFolders (s.memoAfter twoFolders []) "h").1 = .ok ⟨0, [⟨"b"⟩]⟩ := by
    decide +kernel
  obtain ⟨kept, pathsFor, hok, hstands, hreaches, -⟩ :=
    reaches_filesFor_iff proper_twoFolders ⟨"."⟩ (.new [] []) [⟨⟨"groups"⟩, false⟩] [] hg rfl
  have hsources := mem_of_standsFor_sources (hstands ⟨false, .path ⟨"a/*.java"⟩⟩ (by decide))
  have hfolder : pathsFor ⟨false, .group "h"⟩ = [⟨"b"⟩] := by
    obtain ⟨kept', hkept', heq⟩ := (hstands ⟨false, .group "h"⟩ (by decide)).eq_files
    rw [heq, Except.ok.inj (hkept'.symm.trans hh)]
  have hadded (q : Path) : q ∈ (g.entries.filter (·.exclude == false)).flatMap pathsFor ↔
      q = ⟨"a/x.java"⟩ ∨ q = ⟨"a/y.java"⟩ ∨ q = ⟨"b"⟩ := by
    change q ∈ pathsFor ⟨false, .path ⟨"a/*.java"⟩⟩ ++ (pathsFor ⟨false, .group "h"⟩ ++ []) ↔ _
    rw [List.mem_append, hsources, hfolder, List.append_nil, List.mem_singleton, or_assoc]
  have htaken : (g.entries.filter (·.exclude == true)).flatMap pathsFor = [⟨"a/x.java"⟩] := by
    change pathsFor ⟨true, .path ⟨"a/x.java"⟩⟩ ++ [] = _
    rw [(hstands ⟨true, .path ⟨"a/x.java"⟩⟩ (by decide)).eq_singleton (by decide +kernel)]
    rfl
  rw [htaken] at hreaches
  refine ⟨kept, hok, (hreaches _).mpr ⟨⟨⟨"a/y.java"⟩, ?_, ?_⟩, by decide +kernel⟩,
    (hreaches _).mpr ⟨⟨⟨"b"⟩, ?_, ?_⟩, by decide +kernel⟩, fun h => ?_, fun h => ?_⟩
  · refine topmost_of_apart ((hadded _).mpr (.inr (.inl rfl))) fun q hq => ?_
    rcases (hadded q).mp hq with rfl | rfl | rfl <;> decide +kernel
  · exact .file (by decide +kernel) (by decide +kernel)
  · refine topmost_of_apart ((hadded _).mpr (.inr (.inr rfl))) fun q hq => ?_
    rcases (hadded q).mp hq with rfl | rfl | rfl <;> decide +kernel
  · have hw : (PathRules.new [] []).Reaches twoFolders ⟨"b/w.java"⟩ ⟨"b/w.java"⟩ :=
      .file (by decide +kernel) (by decide +kernel)
    exact .child (by decide +kernel) (by decide +kernel) (by decide +kernel) hw
  · exact ((hreaches _).mp h).2 _ List.mem_cons_self (isWithin_refl _)
  · obtain ⟨⟨p, hp, hreach⟩, -⟩ := (hreaches _).mp h
    have hwithin := hreach.isWithin proper_twoFolders
    rcases (hadded p).mp hp.1.mem with rfl | rfl | rfl <;>
      exact absurd hwithin (by decide +kernel)

end GroupSet

end TestSelection
