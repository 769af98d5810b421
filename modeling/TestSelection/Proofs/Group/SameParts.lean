import Mathlib.Data.List.Sort
import TestSelection.Proofs.Following
import TestSelection.Proofs.Group.Folders
import TestSelection.Proofs.Group.Yield

/-!
Selections compared part by part. Which of several spellings of a path is kept depends on the order
in which they are added, so the files of a group are compared by their parts. The order of entries
and the spellings do not count, as long as spellings of one path are followed alike: then folders
are opened on both sides at once, and each side finds entries with the same parts.
-/

namespace TestSelection

open Relation TestSelection.Path

namespace Path

variable {paths paths' : List Path} {p q r : Path}

/-- The lists have the same paths, part by part. -/
def SameParts (paths paths' : List Path) : Prop :=
  ∀ parts, parts ∈ paths.map Path.parts ↔ parts ∈ paths'.map Path.parts

theorem SameParts.symm (h : SameParts paths paths') : SameParts paths' paths :=
  fun parts => (h parts).symm

theorem SameParts.trans {paths'' : List Path} (h : SameParts paths paths')
    (h' : SameParts paths' paths'') : SameParts paths paths'' :=
  fun parts => (h parts).trans (h' parts)

theorem sameParts_of_map_eq (h : paths.map Path.parts = paths'.map Path.parts) :
    SameParts paths paths' := by
  intro parts
  rw [h]

/-- It is enough to find each path of either list in the other one. -/
theorem sameParts_of_exists (h : ∀ p ∈ paths, ∃ q ∈ paths', q.parts = p.parts)
    (h' : ∀ q ∈ paths', ∃ p ∈ paths, p.parts = q.parts) : SameParts paths paths' := by
  intro parts
  simp only [List.mem_map]
  constructor
  · rintro ⟨p, hp, rfl⟩
    exact h p hp
  · rintro ⟨q, hq, rfl⟩
    exact h' q hq

theorem SameParts.exists_mem (h : SameParts paths paths') (hp : p ∈ paths) :
    ∃ q ∈ paths', q.parts = p.parts :=
  List.mem_map.mp ((h p.parts).mp (List.mem_map_of_mem hp))

theorem isWithin_congr_right (h : p.parts = q.parts) : r.isWithin p = r.isWithin q := by
  rw [isWithin, isWithin, h]

theorem isBelow_congr {p' q' : Path} (hp : p.parts = p'.parts) (hq : q.parts = q'.parts) :
    p.isBelow q = p'.isBelow q' := by
  rw [isBelow, isBelow, isWithin, isWithin, same, same, hp, hq]

/-- What looks at parts only finds the same in lists with the same parts. -/
theorem SameParts.any_eq (h : SameParts paths paths') {f f' : Path → Bool}
    (hf : ∀ p q, p.parts = q.parts → f p = f' q) : paths.any f = paths'.any f' := by
  rw [Bool.eq_iff_iff, List.any_eq_true, List.any_eq_true]
  constructor
  · rintro ⟨p, hp, hfp⟩
    obtain ⟨q, hq, hparts⟩ := h.exists_mem hp
    exact ⟨q, hq, hf p q hparts.symm ▸ hfp⟩
  · rintro ⟨q, hq, hfq⟩
    obtain ⟨p, hp, hparts⟩ := h.symm.exists_mem hq
    exact ⟨p, hp, hf p q hparts ▸ hfq⟩

theorem SameParts.exists_topmost (h : SameParts paths paths') (hp : Topmost paths p) :
    ∃ q, Topmost paths' q ∧ q.parts = p.parts := by
  obtain ⟨q', hq', hparts'⟩ := h.exists_mem hp.1.mem
  obtain ⟨q, hq, hparts⟩ := exists_firstIn hq'
  have heq := hparts.trans hparts'
  refine ⟨q, ⟨hq, fun r' hr' hbelow => ?_⟩, heq⟩
  obtain ⟨r, hr, hrparts⟩ := h.symm.exists_mem hr'
  exact hp.2 r hr ((isBelow_congr heq hrparts.symm).symm.trans hbelow)

/-- Of ordered lists with the same paths the parts are the same, one by one. -/
theorem SameParts.map_parts_eq (h : SameParts paths paths') (hpaths : Ordered paths)
    (hpaths' : Ordered paths') : paths.map Path.parts = paths'.map Path.parts := by
  have hsorted : ∀ {paths}, Ordered paths → (paths.map Path.parts).Pairwise (· < ·) :=
    fun h => List.pairwise_map.mpr h
  exact (hsorted hpaths).eq_of_mem_iff (hsorted hpaths') fun parts => h parts

theorem sameParts_orderedSet (paths : List Path) : SameParts (orderedSet paths) paths := by
  refine sameParts_of_exists (fun p hp => ⟨p, (mem_orderedSet.mp hp).mem, rfl⟩) fun p hp => ?_
  obtain ⟨q, hq, hparts⟩ := exists_firstIn hp
  exact ⟨q, mem_orderedSet.mpr hq, hparts⟩

theorem SameParts.exists_isWithin_iff (h : SameParts paths paths') :
    (∃ p ∈ paths, r.isWithin p = true) ↔ ∃ p ∈ paths', r.isWithin p = true := by
  simp only [← List.any_eq_true]
  rw [h.any_eq fun p q hparts => isWithin_congr_right hparts]

/-- Path sets are the same, part by part, exactly if what was added covers the same paths. -/
theorem map_parts_ofList_eq_iff :
    (PathSet.ofList paths).map Path.parts = (PathSet.ofList paths').map Path.parts ↔
      ∀ r : Path, (∃ p ∈ paths, r.isWithin p = true) ↔ ∃ p ∈ paths', r.isWithin p = true := by
  constructor
  · intro h r
    calc (∃ p ∈ paths, r.isWithin p = true)
        ↔ ∃ p ∈ PathSet.ofList paths, r.isWithin p = true :=
          PathSet.exists_mem_ofList_isWithin.symm
      _ ↔ ∃ p ∈ PathSet.ofList paths', r.isWithin p = true :=
          (sameParts_of_map_eq h).exists_isWithin_iff
      _ ↔ ∃ p ∈ paths', r.isWithin p = true := PathSet.exists_mem_ofList_isWithin
  · intro h
    have hofList : SameParts (PathSet.ofList paths) (PathSet.ofList paths') :=
      sameParts_of_exists (fun p hp => PathSet.exists_mem_ofList_parts_eq h hp)
        fun q hq => PathSet.exists_mem_ofList_parts_eq (fun r => (h r).symm) hq
    exact hofList.map_parts_eq (PathSet.ordered_ofList paths) (PathSet.ordered_ofList paths')

/-- A path set depends on the parts of what is added alone, and on no order. -/
theorem SameParts.map_parts_ofList (h : SameParts paths paths') :
    (PathSet.ofList paths).map Path.parts = (PathSet.ofList paths').map Path.parts :=
  map_parts_ofList_eq_iff.mpr fun _ => h.exists_isWithin_iff

end Path

/-! ### Opening in step -/

namespace PathRules

variable {r : PathRules} {tree : FileTree} {spelled : Path → Prop} {excluded excluded' : List Path}
  {p q : Path}

/-- Paths of folders with the same parts have entries with the same parts, one by one. -/
theorem forall₂_children (htree : tree.Proper) (hp : tree.hasFolder p = true)
    (hq : tree.hasFolder q = true) (hparts : p.parts = q.parts) :
    List.Forall₂ (fun a b => a ∈ tree.children p ∧ b ∈ tree.children q ∧ a.parts = b.parts)
      (tree.children p) (tree.children q) := by
  obtain ⟨entries, hp⟩ := FileTree.hasFolder_iff.mp hp
  obtain ⟨entries', hq⟩ := FileTree.hasFolder_iff.mp hq
  obtain rfl := FileTree.folder.inj (FileTree.eq_of_find_eq_ok hp hq hparts)
  have hchildren : ∀ {p}, tree.find p = .ok (.folder entries) →
      tree.children p = entries.map fun e => p.join e.1 := by
    intro p hp
    rw [FileTree.children, hp]
  obtain ⟨-, hpne, -⟩ := FileTree.find_eq_ok hp
  obtain ⟨-, hqne, -⟩ := FileTree.find_eq_ok hq
  cases htree.of_find hp with
  | folder _ hnames _ =>
      rw [hchildren hp, hchildren hq, List.forall₂_map_left_iff, List.forall₂_map_right_iff,
        List.forall₂_same]
      intro e he
      refine ⟨List.mem_map_of_mem he, List.mem_map_of_mem he, ?_⟩
      rw [parts_join hpne (hnames e he).no_slash (hnames e he).ofPiece?,
        parts_join hqne (hnames e he).no_slash (hnames e he).ofPiece?, hparts]

theorem admits_congr (hparts : p.parts = q.parts)
    (hfolder : tree.hasFolder p = tree.hasFolder q) : r.admits tree p = r.admits tree q := by
  have hname : p.fileName? = q.fileName? := by rw [fileName?, fileName?, hparts]
  rw [admits, admits, hfolder, hname, extension?, extension?, hname]

theorem map_parts_flatMap_filter {paths paths' : List Path} {keep : Path → Bool}
    {f f' : Path → List Path}
    (h : List.Forall₂
      (fun p q => keep p = keep q ∧ (f p).map Path.parts = (f' q).map Path.parts) paths paths') :
    ((paths.filter keep).flatMap f).map Path.parts
      = ((paths'.filter keep).flatMap f').map Path.parts := by
  induction h with
  | nil => rfl
  | @cons p q paths paths' hpq _ ih =>
      rw [List.filter_cons, List.filter_cons, hpq.1]
      split
      · rw [List.flatMap_cons, List.flatMap_cons, List.map_append, List.map_append, hpq.2, ih]
      · exact ih

/-- From two spellings of a path that are followed alike the same remains. -/
theorem map_parts_remaining (htree : tree.Proper) (hexcluded : SameParts excluded excluded')
    (hchild : ∀ p q, spelled p → q ∈ tree.children p → spelled q)
    (hfolder : ∀ p q, spelled p → spelled q → p.parts = q.parts →
      tree.hasFolder p = tree.hasFolder q)
    {depth : Nat} (hp : spelled p) (hq : spelled q) (hparts : p.parts = q.parts) :
    (r.remaining tree excluded depth p).map Path.parts
      = (r.remaining tree excluded' depth q).map Path.parts := by
  have hwithin : ∀ {p q : Path}, p.parts = q.parts →
      excluded.any p.isWithin = excluded'.any q.isWithin := fun {p q} h =>
    hexcluded.any_eq fun x y hxy => (isWithin_congr h).trans (isWithin_congr_right hxy)
  have hbelow : ∀ {p q : Path}, p.parts = q.parts →
      excluded.any (·.isBelow p) = excluded'.any (·.isBelow q) := fun {p q} h =>
    hexcluded.any_eq fun x y hxy => isBelow_congr hxy h
  induction depth generalizing p q with
  | zero =>
      rw [remaining, remaining, hwithin hparts]
      split
      · rfl
      · exact congrArg (fun parts => [parts]) hparts
  | succ depth ih =>
      rw [remaining, remaining, hwithin hparts, hbelow hparts, hfolder p q hp hq hparts]
      split
      · rfl
      split
      · rename_i hopen
        have hqfolder := (Bool.and_eq_true_iff.mp hopen).2
        have hpfolder := (hfolder p q hp hq hparts).trans hqfolder
        have hchildren := forall₂_children htree hpfolder hqfolder hparts
        refine map_parts_flatMap_filter (hchildren.imp fun a b h => ?_)
        obtain ⟨ha, hb, hab⟩ := h
        have hspelled := hchild p a hp ha
        have hspelled' := hchild q b hq hb
        exact ⟨admits_congr hab (hfolder a b hspelled hspelled' hab), ih hspelled hspelled' hab⟩
      · exact congrArg (fun parts => [parts]) hparts

end PathRules

namespace Groups

variable {gs gs' : Groups}

/-- The same groups are defined, with the same entries in whatever order. -/
structure Alike (gs gs' : Groups) : Prop where
  contains (name : String) : gs.contains name = gs'.contains name
  entries {name : String} {g g' : Group} (hg : gs.get? name = some g)
    (hg' : gs'.get? name = some g') : g.entries.Perm g'.entries

theorem Alike.symm (h : gs.Alike gs') : gs'.Alike gs where
  contains name := (h.contains name).symm
  entries hg hg' := (h.entries hg' hg).symm

theorem Alike.exists_get? (h : gs.Alike gs') {name : String} {g : Group}
    (hg : gs.get? name = some g) :
    ∃ g', gs'.get? name = some g' ∧ g.entries.Perm g'.entries := by
  have hcontains := Table.contains_iff.mpr ⟨g, hg⟩
  rw [h.contains] at hcontains
  obtain ⟨g', hg'⟩ := Table.contains_iff.mp hcontains
  exact ⟨g', hg', h.entries hg hg'⟩

theorem mem_references_congr {g g' : Group} (h : g.entries.Perm g'.entries) {name : String} :
    name ∈ g.references ↔ name ∈ g'.references := by
  simp only [Group.mem_references, h.mem_iff]

theorem Alike.refers_of_refers (h : gs.Alike gs') {a b : String} (hab : gs.Refers a b) :
    gs'.Refers a b := by
  obtain ⟨g, hg, hb⟩ := hab
  obtain ⟨g', hg', hentries⟩ := h.exists_get? hg
  exact ⟨g', hg', (mem_references_congr hentries).mp hb⟩

theorem Alike.hasEntry (h : gs.Alike gs') {name : String} (hname : gs.HasEntry name) :
    gs'.HasEntry name := by
  obtain ⟨g, hg, hentries⟩ := hname
  obtain ⟨g', hg', hperm⟩ := h.exists_get? hg
  exact ⟨g', hg', fun hnil => hentries (List.Perm.eq_nil (hnil ▸ hperm))⟩

theorem Alike.refers (h : gs.Alike gs') : gs.Refers = gs'.Refers := by
  funext a b
  exact propext ⟨h.refers_of_refers, h.symm.refers_of_refers⟩

end Groups

namespace GroupSet

variable {s s' : GroupSet} {tree tree' : FileTree} {name : String} {p q : Path}

theorem Yields.of_alike (hfolders : tree.SameFolders tree') (halike : s.groups.Alike s'.groups)
    (h : s.Yields tree name p) : s'.Yields tree' name p := by
  induction h with
  | added h =>
      obtain ⟨a, g, ha, hg, e, he, hexclude, given, htarget, hp⟩ := h
      obtain ⟨g', hg', hentries⟩ := halike.exists_get? hg
      rw [halike.refers] at ha
      rw [pathsOf_congr hfolders] at hp
      exact .added ⟨a, g', ha, hg', e, hentries.mem_iff.mp he, hexclude, given, htarget, hp⟩
  | child _ hq ih => exact ih.child (hfolders.children_eq _ ▸ hq)

/-- Of the paths that a group and those that it leads to add, and of those of entries below them, no
two spellings of one path are followed to a folder and to none. -/
def FollowedAlike (s : GroupSet) (tree : FileTree) (name : String) : Prop :=
  ∀ p q, s.Yields tree name p → s.Yields tree name q → p.parts = q.parts →
    tree.hasFolder p = tree.hasFolder q

theorem FollowedAlike.of_refers {a : String} (ha : s.groups.Refers name a)
    (h : s.FollowedAlike tree name) : s.FollowedAlike tree a :=
  fun p q hp hq => h p q (hp.of_refers ha) (hq.of_refers ha)

/-- Spellings that are not too long are followed alike. -/
theorem followedAlike_of_piecesOf
    (h : ∀ p, s.Yields tree name p → (FileTree.piecesOf p).isOk = true) :
    s.FollowedAlike tree name := by
  have hpieces : ∀ p, s.Yields tree name p → ∃ pieces, FileTree.piecesOf p = .ok pieces := by
    intro p hp
    have hok := h p hp
    cases hpieces : FileTree.piecesOf p with
    | ok pieces => exact ⟨pieces, rfl⟩
    | error error =>
        rw [hpieces] at hok
        exact nomatch hok
  intro p q hp hq hparts
  obtain ⟨pieces, hp⟩ := hpieces p hp
  obtain ⟨pieces', hq⟩ := hpieces q hq
  exact FileTree.hasFolder_congr hp hq hparts

section

variable {filesOf filesOf' : String → List Path} {entries entries' : List GroupEntry}

theorem sameParts_pathsWith (hentries : entries.Perm entries')
    (hfiles : ∀ e ∈ entries, ∀ b, e.target = .group b → SameParts (filesOf b) (filesOf' b))
    (exclude : Bool) :
    SameParts (pathsWith tree filesOf exclude entries)
      (pathsWith tree filesOf' exclude entries') := by
  have hpaths : ∀ e ∈ entries,
      SameParts (entryPaths tree filesOf e) (entryPaths tree filesOf' e) := by
    intro e he
    rw [entryPaths, entryPaths]
    cases htarget : e.target with
    | path given => exact fun _ => Iff.rfl
    | group b => exact hfiles e he b htarget
  refine sameParts_of_exists (fun p hp => ?_) fun p hp => ?_
  · obtain ⟨e, he, hexclude, hp⟩ := mem_pathsWith.mp hp
    obtain ⟨q, hq, hparts⟩ := (hpaths e he).exists_mem hp
    exact ⟨q, mem_pathsWith.mpr ⟨e, hentries.mem_iff.mp he, hexclude, hq⟩, hparts⟩
  · obtain ⟨e, he, hexclude, hp⟩ := mem_pathsWith.mp hp
    have he := hentries.mem_iff.mpr he
    obtain ⟨q, hq, hparts⟩ := (hpaths e he).symm.exists_mem hp
    exact ⟨q, mem_pathsWith.mpr ⟨e, he, hexclude, hq⟩, hparts⟩

/-- What is put together from the same paths is the same. -/
theorem map_parts_combine (htree : tree.Proper) {spelled : Path → Prop}
    (hchild : ∀ p q, spelled p → q ∈ tree.children p → spelled q)
    (hfolder : ∀ p q, spelled p → spelled q → p.parts = q.parts →
      tree.hasFolder p = tree.hasFolder q)
    (hspelled : ∀ p ∈ pathsWith tree filesOf false entries, spelled p)
    (hspelled' : ∀ p ∈ pathsWith tree filesOf' false entries', spelled p)
    (hpaths : ∀ exclude, SameParts (pathsWith tree filesOf exclude entries)
      (pathsWith tree filesOf' exclude entries')) :
    (s.combine tree (sidesOf tree filesOf entries)).map Path.parts
      = (s.combine tree (sidesOf tree filesOf' entries')).map Path.parts := by
  have hexcluded : SameParts (orderedSet (pathsWith tree filesOf true entries))
      (orderedSet (pathsWith tree filesOf' true entries')) :=
    (sameParts_orderedSet _).trans ((hpaths true).trans (sameParts_orderedSet _).symm)
  have hremaining : ∀ p q, Topmost (pathsWith tree filesOf false entries) p →
      Topmost (pathsWith tree filesOf' false entries') q → p.parts = q.parts →
      SameParts (s.rules.subtract tree p (orderedSet (pathsWith tree filesOf true entries)))
        (s.rules.subtract tree q (orderedSet (pathsWith tree filesOf' true entries'))) :=
    fun p q hp hq hparts => sameParts_of_map_eq (PathRules.map_parts_remaining htree hexcluded
      hchild hfolder (hspelled p hp.1.mem) (hspelled' q hq.1.mem) hparts)
  have hsame : SameParts (s.combine tree (sidesOf tree filesOf entries))
      (s.combine tree (sidesOf tree filesOf' entries')) := by
    refine sameParts_of_exists (fun x hx => ?_) fun x hx => ?_
    · obtain ⟨p, hp, hx⟩ := (mem_combine htree).mp hx
      obtain ⟨q, hq, hparts⟩ := (hpaths false).exists_topmost hp
      obtain ⟨y, hy, hyx⟩ := (hremaining p q hp hq hparts.symm).exists_mem hx
      exact ⟨y, (mem_combine htree).mpr ⟨q, hq, hy⟩, hyx⟩
    · obtain ⟨q, hq, hx⟩ := (mem_combine htree).mp hx
      obtain ⟨p, hp, hparts⟩ := (hpaths false).symm.exists_topmost hq
      obtain ⟨y, hy, hyx⟩ := (hremaining p q hp hq hparts).symm.exists_mem hx
      exact ⟨y, (mem_combine htree).mpr ⟨p, hp, hy⟩, hyx⟩
  apply hsame.map_parts_eq
  · rw [combine_sidesOf]
    exact ordered_orderedSet _
  · rw [combine_sidesOf]
    exact ordered_orderedSet _

end

/-- A group resolves to the same files part by part, if its paths are followed alike. -/
theorem Resolves.map_parts_eq (htree : tree.Proper) (hfolders : tree.SameFolders tree')
    (hrules : s.rules = s'.rules) (halike : s.groups.Alike s'.groups) {files files' : List Path}
    (h : s.Resolves tree name files) (h' : s'.Resolves tree' name files')
    (hfollowed : s.FollowedAlike tree name) :
    files.map Path.parts = files'.map Path.parts := by
  induction h generalizing files' with
  | @group name g filesOf hg _ hfiles ih =>
      obtain ⟨g', hg', hentries⟩ := halike.exists_get? hg
      obtain ⟨filesOf', hfiles', rfl⟩ := h'.exists_of_get? hg'
      rw [← combine_sidesOf_congr hfolders hrules]
      apply map_parts_combine htree (fun p q hp hq => Yields.child hp hq) hfollowed
      · exact fun p hp => yields_of_mem_pathsWith hg (fun b hb q hq => (hfiles b hb).yields hq) hp
      · intro p hp
        refine Yields.of_alike hfolders.symm halike.symm ?_
        refine yields_of_mem_pathsWith hg' (fun b hb q hq => (hfiles' b hb).yields hq) ?_
        rw [pathsWith, ← entryPaths_congr hfolders]
        exact hp
      · refine sameParts_pathsWith hentries fun e he b htarget => ?_
        have hb := Group.mem_references.mpr ⟨e, he, htarget⟩
        have hb' := (Groups.mem_references_congr hentries).mp hb
        exact sameParts_of_map_eq (ih b hb (hfiles' b hb') (hfollowed.of_refers ⟨g, hg, hb⟩))

end GroupSet

end TestSelection
