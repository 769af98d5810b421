import TestSelection.Proofs.Following
import TestSelection.Proofs.Group.Yield

/-!
Excluded places. Exclusions are compared with what they are taken from part by part, so they do
what they say where parts tell the place: where all paths start alike and no part leads back. Then
of two paths that lead above one file one is within the other. An exclusion that leads above a file
of the tree cannot lie above a path of the group, nor truly inside one, since what has an exclusion
inside is opened if it is a folder.
-/

namespace TestSelection

open Relation

namespace Path

/-- A path that goes on from given parts by names alone. -/
def GoesDown (start : List PathPart) (p : Path) : Prop :=
  ∃ names : List String, p.parts = start ++ names.map PathPart.name

variable {start : List PathPart} {p q : Path}

theorem placeOf_of_parts (hstart : IsStart start) {names : List String}
    (hp : p.parts = start ++ names.map PathPart.name) : FileTree.placeOf p = names := by
  have hnames : ∀ (names place : List String),
      (names.map PathPart.name).foldl FileTree.stepTo place = place ++ names := by
    intro names
    induction names with
    | nil => exact fun place => (List.append_nil place).symm
    | cons name rest ih =>
        intro place
        rw [List.map_cons, List.foldl_cons, ih, FileTree.stepTo, List.append_assoc]
        rfl
  rw [FileTree.placeOf_eq, hp, List.foldl_append, FileTree.foldl_stepTo_start hstart, hnames,
    List.nil_append]

/-- Of paths that go down, one is within another exactly if its place is below the other one's. -/
theorem isWithin_iff_placeOf (hstart : IsStart start) (hp : p.GoesDown start)
    (hq : q.GoesDown start) :
    p.isWithin q = true ↔ FileTree.placeOf q <+: FileTree.placeOf p := by
  obtain ⟨names, hnames⟩ := hp
  obtain ⟨names', hnames'⟩ := hq
  rw [isWithin_iff, placeOf_of_parts hstart hnames, placeOf_of_parts hstart hnames', hnames,
    hnames', List.prefix_append_right_inj]
  exact List.prefix_map_iff_of_injective fun _ _ => PathPart.name.inj

theorem GoesDown.child {tree : FileTree} (htree : tree.Proper) (hp : p.GoesDown start)
    (hq : q ∈ tree.children p) : q.GoesDown start := by
  obtain ⟨names, hnames⟩ := hp
  obtain ⟨name, hname⟩ := htree.parts_of_mem_children hq
  refine ⟨names ++ [name], ?_⟩
  rw [hname, hnames, List.append_assoc, List.map_append]
  rfl

end Path

/-- The path leads to the place or to one above it. -/
def FileTree.LeadsAbove (tree : FileTree) (p : Path) (place : List String) : Prop :=
  ∃ above, tree.locate p = .ok above ∧ above <+: place

/-- An entry of the group takes the path away. -/
def Group.Excludes (g : Group) (tree : FileTree) (x : Path) : Prop :=
  ∃ e ∈ g.entries, e.exclude = true ∧
    ∃ given, e.target = .path given ∧ x ∈ GroupSet.pathsOf tree given

namespace PathRules

open TestSelection.Path

variable {r : PathRules} {tree : FileTree} {start : List PathPart} {excluded : List Path}
  {p q x : Path} {place : List String}

/-- If a path that is taken away leads above a file, no path that remains does. -/
theorem not_leadsAbove_of_mem_subtract (htree : tree.Proper) (hstart : IsStart start)
    (hq : q.GoesDown start) (hx : x.GoesDown start) (hmem : q ∈ r.subtract tree p excluded)
    (hexcluded : ∃ x' ∈ excluded, x'.parts = x.parts) {content : FileContent}
    (hfile : tree.at? place = some (.file content)) (hxplace : tree.LeadsAbove x place) :
    ¬ tree.LeadsAbove q place := by
  rintro ⟨_, hqlocate, hqplace⟩
  obtain ⟨_, hxlocate, hxplace⟩ := hxplace
  obtain ⟨x', hx', hsame⟩ := hexcluded
  obtain ⟨rfl, hqat⟩ := FileTree.locate_eq_ok hqlocate
  obtain ⟨rfl, -⟩ := FileTree.locate_eq_ok hxlocate
  have houtside : ¬ q.isWithin x = true := fun h => by
    have hwithin := isWithin_trans h (isWithin_of_parts_eq hsame.symm)
    exact not_within_of_mem_remaining hmem (List.any_eq_true.mpr ⟨x', hx', hwithin⟩)
  have hnotabove : ¬ FileTree.placeOf x <+: FileTree.placeOf q := fun h =>
    houtside ((isWithin_iff_placeOf hstart hq hx).mpr h)
  have hinside := (List.prefix_or_prefix_of_prefix hqplace hxplace).resolve_right hnotabove
  have hxq : x.isWithin q = true := (isWithin_iff_placeOf hstart hx hq).mpr hinside
  have hbelow : x'.isBelow q = true := by
    refine isBelow_of_isWithin ((isWithin_congr hsame).trans hxq) fun h => houtside ?_
    exact isWithin_trans h (isWithin_of_parts_eq hsame)
  have hnofolder : ¬ tree.hasFolder q = true := fun h =>
    not_opened_of_mem_subtract htree hmem
      (Bool.and_eq_true_iff.mpr ⟨List.any_eq_true.mpr ⟨x', hx', hbelow⟩, h⟩)
  obtain ⟨sub, hsub⟩ := Option.ne_none_iff_exists'.mp hqat
  have hfind := FileTree.find_eq_ok_iff.mpr ⟨hqlocate, hsub⟩
  cases sub with
  | folder entries => exact hnofolder (FileTree.hasFolder_iff.mpr ⟨entries, hfind⟩)
  | file content' =>
      obtain ⟨rest, rfl⟩ := hqplace
      have hrest : rest ≠ [] := by
        rintro rfl
        rw [List.append_nil] at hxplace
        exact hnotabove hxplace
      rw [FileTree.at?_append, hsub, Option.bind_some, FileTree.at?_file content' hrest] at hfile
      exact nomatch hfile

end PathRules

namespace GroupSet

open TestSelection.Path

variable {s : GroupSet} {tree : FileTree} {name : String} {start : List PathPart} {p q x : Path}

theorem Yields.goesDown (htree : tree.Proper)
    (hadded : ∀ p, s.Adds tree name p → p.GoesDown start) (h : s.Yields tree name q) :
    q.GoesDown start := by
  induction h with
  | added h => exact hadded _ h
  | child _ hq ih => exact ih.child htree hq

theorem exists_mem_orderedSet_of_excludes {filesOf : String → List Path} {g : Group}
    (h : g.Excludes tree x) :
    ∃ x' ∈ orderedSet (pathsWith tree filesOf true g.entries), x'.parts = x.parts := by
  obtain ⟨e, he, hexclude, given, htarget, hx⟩ := h
  have hmem : x ∈ pathsWith tree filesOf true g.entries := by
    refine mem_pathsWith.mpr ⟨e, he, hexclude, ?_⟩
    rw [entryPaths, htarget]
    exact hx
  obtain ⟨x', hfirst, hparts⟩ := exists_firstIn hmem
  exact ⟨x', mem_orderedSet.mpr hfirst, hparts⟩

/-- If the paths that a group and the groups that it leads to add, and those that it takes away,
start alike and have no part that leads back, then no file at or below what it takes away is at or
below one of its files. -/
theorem not_leadsAbove_of_excludes {tree : FileTree} (htree : tree.Proper) (root : Path)
    (rules : PathRules) (files : List GroupFile) (calls : List Call) {name : String} {g : Group}
    (hg : (load tree root rules files).1.groups.get? name = some g) (hvalid : g.isValid = true)
    {start : List PathPart} (hstart : IsStart start)
    (hadded : ∀ p, (load tree root rules files).1.Adds tree name p → p.GoesDown start)
    (hexcluded : ∀ x, g.Excludes tree x → x.GoesDown start) :
    let s := (load tree root rules files).1
    ∃ kept, (s.filesFor tree (s.memoAfter tree calls) name).1 = .ok kept ∧
      ∀ place content, tree.at? place = some (.file content) →
        ∀ x, g.Excludes tree x → tree.LeadsAbove x place →
          ∀ q ∈ kept.files, ¬ tree.LeadsAbove q place := by
  intro s
  have hs : s.groups.Checked := Groups.checked_marked (Groups.read tree root files)
  obtain ⟨kept, hok, hkept, -⟩ :=
    answers_filesFor hs ⟨g, hg, hvalid⟩ (memoSound_memoAfter hs calls)
  refine ⟨kept, hok, fun place content hfile x hx hxplace q hq => ?_⟩
  have hqdown := (hkept.yields hq).goesDown htree hadded
  obtain ⟨filesOf, -, hfiles⟩ := hkept.exists_of_get? hg
  rw [hfiles] at hq
  obtain ⟨p, -, hq⟩ := exists_of_mem_combine hq
  exact PathRules.not_leadsAbove_of_mem_subtract htree hstart hqdown (hexcluded x hx) hq
    (exists_mem_orderedSet_of_excludes hx) hfile hxplace

/-- A folder with two files, and two ways to spell a group of it without the first of them. -/
def twoSpellings : FileTree :=
  .folder [("lib", .folder [("x", .file (.text "")), ("y", .file (.text ""))]),
    ("sub", .folder [("back", .file (.text "g = /lib -../lib/x")),
      ("top", .file (.text "g = /lib -/lib/x"))])]

theorem proper_twoSpellings : twoSpellings.Proper := FileTree.proper_of_isProper (by decide)

/-- With both paths spelled from the root the file is kept out. -/
theorem not_leadsAbove_of_excludes_top :
    ∃ kept, let s := (load twoSpellings ⟨"/"⟩ (.new [] []) [⟨⟨"/sub/top"⟩, false⟩]).1
      (s.filesFor twoSpellings (s.memoAfter twoSpellings []) "g").1 = .ok kept ∧
      twoSpellings.LeadsAbove ⟨"/lib/x"⟩ ["lib", "x"] ∧
      ∀ q ∈ kept.files, ¬ twoSpellings.LeadsAbove q ["lib", "x"] := by
  let g : Group := ⟨[⟨false, .path ⟨"/lib"⟩⟩, ⟨true, .path ⟨"/lib/x"⟩⟩], [⟨"/sub/top"⟩], []⟩
  have hg : (load twoSpellings ⟨"/"⟩ (.new [] []) [⟨⟨"/sub/top"⟩, false⟩]).1.groups.get? "g"
      = some g := by decide +kernel
  have hstart : Path.IsStart [.root] := List.forall_mem_singleton.mpr (.inl rfl)
  have hgiven : ∀ e ∈ g.entries, ∀ given, e.target = .path given →
      ∀ p ∈ pathsOf twoSpellings given, p.GoesDown [.root] := by
    rintro e he given htarget p hp
    rcases List.mem_pair.mp he with rfl | rfl
    · obtain rfl := GroupTarget.path.inj htarget
      obtain rfl := List.mem_singleton.mp hp
      exact ⟨["lib"], by decide⟩
    · obtain rfl := GroupTarget.path.inj htarget
      obtain rfl := List.mem_singleton.mp hp
      exact ⟨["lib", "x"], by decide⟩
  have hleads : twoSpellings.LeadsAbove ⟨"/lib/x"⟩ ["lib", "x"] :=
    ⟨["lib", "x"], by decide +kernel, List.prefix_refl _⟩
  obtain ⟨kept, hok, hkept⟩ := not_leadsAbove_of_excludes proper_twoSpellings ⟨"/"⟩ (.new [] [])
    [⟨⟨"/sub/top"⟩, false⟩] [] hg rfl hstart
    (fun p hp => by
      obtain ⟨e, he, -, given, htarget, hp⟩ := hp.of_references_eq_nil hg rfl
      exact hgiven e he given htarget p hp)
    (fun x ⟨e, he, _, given, htarget, hx⟩ => hgiven e he given htarget x hx)
  refine ⟨kept, hok, hleads, hkept ["lib", "x"] (.text "") rfl ⟨"/lib/x"⟩ ?_ hleads⟩
  exact ⟨⟨true, .path ⟨"/lib/x"⟩⟩, by simp [g], rfl, _, rfl, by decide +kernel⟩

/-- Spelled through the parent of its folder, the exclusion leaves the folder whole, with the file
that it leads to. -/
theorem leadsAbove_of_excludes_back :
    ∃ g kept x q, let s := (load twoSpellings ⟨"/"⟩ (.new [] []) [⟨⟨"/sub/back"⟩, false⟩]).1
      s.groups.get? "g" = some g ∧ g.isValid = true ∧
      (s.filesFor twoSpellings (s.memoAfter twoSpellings []) "g").1 = .ok kept ∧
      twoSpellings.at? ["lib", "x"] = some (.file (.text "")) ∧
      g.Excludes twoSpellings x ∧ twoSpellings.LeadsAbove x ["lib", "x"] ∧
      q ∈ kept.files ∧ twoSpellings.LeadsAbove q ["lib", "x"] := by
  let g : Group :=
    ⟨[⟨false, .path ⟨"/lib"⟩⟩, ⟨true, .path ⟨"/sub/../lib/x"⟩⟩], [⟨"/sub/back"⟩], []⟩
  refine ⟨g, ⟨0, [⟨"/lib"⟩]⟩, ⟨"/sub/../lib/x"⟩, ⟨"/lib"⟩, by decide +kernel, rfl,
    by decide +kernel, rfl, ?_, ?_, List.mem_cons_self, ?_⟩
  · exact ⟨⟨true, .path ⟨"/sub/../lib/x"⟩⟩, by simp [g], rfl, _, rfl, by decide +kernel⟩
  · exact ⟨["lib", "x"], by decide +kernel, List.prefix_refl _⟩
  · exact ⟨["lib"], by decide +kernel, by decide⟩

end GroupSet

end TestSelection
