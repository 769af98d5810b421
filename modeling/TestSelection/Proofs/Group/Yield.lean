import TestSelection.Proofs.Group.Selection

/-!
Where the files of a group come from. Whatever a group selects is a path that an entry of it, or of
a group that it leads to, adds, or an entry of a folder that is opened on the way down from such a
path. What holds of the paths added and is handed on to the entries of folders holds of the files.
-/

namespace TestSelection

open Relation

namespace GroupSet

variable {s : GroupSet} {tree : FileTree} {name : String} {p q : Path}

/-- An entry of the group, or of a group that it leads to, adds the path. -/
def Adds (s : GroupSet) (tree : FileTree) (name : String) (p : Path) : Prop :=
  ∃ a g, ReflTransGen s.groups.Refers name a ∧ s.groups.get? a = some g ∧
    ∃ e ∈ g.entries, e.exclude = false ∧ ∃ given, e.target = .path given ∧ p ∈ pathsOf tree given

/-- A group without references adds what its own entries add. -/
theorem Adds.of_references_eq_nil {g : Group} (hg : s.groups.get? name = some g)
    (hreferences : g.references = []) (h : s.Adds tree name p) :
    ∃ e ∈ g.entries, e.exclude = false ∧ ∃ given, e.target = .path given ∧
      p ∈ pathsOf tree given := by
  obtain ⟨a, g', ha, hg', hadds⟩ := h
  rcases ReflTransGen.cases_head ha with rfl | ⟨b, ⟨g'', hg'', hb⟩, -⟩
  · obtain rfl := Option.some.inj (hg.symm.trans hg')
    exact hadds
  · obtain rfl := Option.some.inj (hg.symm.trans hg'')
    exact absurd (hreferences ▸ hb) List.not_mem_nil

/-- The path is added, or it is that of an entry of a folder with such a path. -/
inductive Yields (s : GroupSet) (tree : FileTree) (name : String) : Path → Prop
  | added {p : Path} (h : s.Adds tree name p) : Yields s tree name p
  | child {p q : Path} (h : Yields s tree name p) (hq : q ∈ tree.children p) :
      Yields s tree name q

theorem Adds.of_refers {a : String} (ha : s.groups.Refers name a) (h : s.Adds tree a p) :
    s.Adds tree name p := by
  obtain ⟨b, g, hab, hadds⟩ := h
  exact ⟨b, g, hab.head ha, hadds⟩

theorem Yields.of_refers {a : String} (ha : s.groups.Refers name a) (h : s.Yields tree a p) :
    s.Yields tree name p := by
  induction h with
  | added h => exact .added (h.of_refers ha)
  | child _ hq ih => exact .child ih hq

theorem mem_pathsWith {filesOf : String → List Path} {exclude : Bool} {entries : List GroupEntry} :
    p ∈ pathsWith tree filesOf exclude entries ↔
      ∃ e ∈ entries, e.exclude = exclude ∧ p ∈ entryPaths tree filesOf e := by
  rw [pathsWith, List.mem_flatMap]
  simp only [List.mem_filter, beq_iff_eq, and_assoc]

theorem pathsWith_append (tree : FileTree) (filesOf : String → List Path) (exclude : Bool)
    (first second : List GroupEntry) :
    pathsWith tree filesOf exclude (first ++ second)
      = pathsWith tree filesOf exclude first ++ pathsWith tree filesOf exclude second := by
  rw [pathsWith, List.filter_append, List.flatMap_append]
  rfl

theorem pathsWith_cons (tree : FileTree) (filesOf : String → List Path) (exclude : Bool)
    (e : GroupEntry) (entries : List GroupEntry) :
    pathsWith tree filesOf exclude (e :: entries)
      = (if e.exclude = exclude then entryPaths tree filesOf e else [])
        ++ pathsWith tree filesOf exclude entries := by
  rw [pathsWith, List.filter_cons]
  by_cases h : e.exclude = exclude <;> simp [h, pathsWith]

theorem exists_of_mem_combine {filesOf : String → List Path} {entries : List GroupEntry}
    (hq : q ∈ s.combine tree (sidesOf tree filesOf entries)) :
    ∃ p ∈ pathsWith tree filesOf false entries,
      q ∈ s.rules.subtract tree p (Path.orderedSet (pathsWith tree filesOf true entries)) := by
  rw [combine_sidesOf] at hq
  obtain ⟨p, hp, hq⟩ := List.mem_flatMap.mp (Path.mem_orderedSet.mp hq).mem
  exact ⟨p, (PathSet.mem_ofList.mp hp).1.mem, hq⟩

/-- What the entries of a group add is added by it or yielded by a group that it refers to. -/
theorem yields_of_mem_pathsWith {filesOf : String → List Path} {g : Group}
    (hg : s.groups.get? name = some g)
    (hfiles : ∀ b ∈ g.references, ∀ q ∈ filesOf b, s.Yields tree b q)
    (hp : p ∈ pathsWith tree filesOf false g.entries) : s.Yields tree name p := by
  obtain ⟨e, he, hexclude, hp⟩ := mem_pathsWith.mp hp
  rw [entryPaths] at hp
  cases htarget : e.target with
  | path given =>
      rw [htarget] at hp
      exact .added ⟨name, g, .refl, hg, e, he, hexclude, given, htarget, hp⟩
  | group b =>
      rw [htarget] at hp
      have hb := Group.mem_references.mpr ⟨e, he, htarget⟩
      exact (hfiles b hb p hp).of_refers ⟨g, hg, hb⟩

theorem Resolves.yields {files : List Path} (h : s.Resolves tree name files) (hq : q ∈ files) :
    s.Yields tree name q := by
  induction h generalizing q with
  | @group name g filesOf hg _ _ ih =>
      obtain ⟨p, hp, hq⟩ := exists_of_mem_combine hq
      have hp : s.Yields tree name p := yields_of_mem_pathsWith hg (fun b hb q hq => ih b hb hq) hp
      exact PathRules.mem_remaining_induction (fun _ _ hp hq => .child hp hq) hp hq

end GroupSet

end TestSelection
