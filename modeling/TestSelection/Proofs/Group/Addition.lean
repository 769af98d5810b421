import TestSelection.Proofs.Group.Clause
import TestSelection.Proofs.Group.Yield

/-!
One more entry that adds. What a group has selected stays within one of its files, if what is added
leaves it whole: a wider path takes the place of narrower ones, and where something inside is taken
away it is opened, which loses the entries of folders that do not count. So it comes down to the way
from the wider path to the old file: at each folder that is opened the next one has to count.
-/

namespace TestSelection

open TestSelection.Path Relation

/-! ### Opening a wider path -/

namespace PathRules

variable {r : PathRules} {tree : FileTree} {taken : Path → Prop} {excluded : List Path}
  {n e q : Path}

/-- The path `e` is within `n`, and on the way down to it there is a path that is not opened, each
of those above being left through an entry that counts. -/
inductive Keeps (r : PathRules) (tree : FileTree) (taken : Path → Prop) : Path → Path → Prop
  | whole {n e : Path} (hwithin : e.isWithin n = true)
      (h : tree.hasFolder n = true → ∀ x, taken x → ¬ x.isBelow n = true) :
      Keeps r tree taken n e
  | child {n q e : Path} (hq : q ∈ tree.children n) (hadmits : r.admits tree q = true)
      (h : Keeps r tree taken q e) : Keeps r tree taken n e

theorem Keeps.isWithin (htree : tree.Proper) (h : r.Keeps tree taken n e) :
    e.isWithin n = true := by
  induction h with
  | whole hwithin => exact hwithin
  | child hq _ _ ih =>
      have hbelow := htree.isBelow_of_mem_children hq
      exact isWithin_trans ih (isWithin_of_isBelow hbelow)

/-- Something that remains has the old file in it. -/
theorem Keeps.exists_mem_remaining (htree : tree.Proper) (htaken : ∀ x ∈ excluded, taken x)
    (houtside : ¬ excluded.any e.isWithin = true) {depth : Nat} (h : r.Keeps tree taken n e) :
    ∃ q ∈ r.remaining tree excluded depth n, e.isWithin q = true := by
  have hwithin := h.isWithin htree
  -- Along the recursion, for every path that is still kept: a whole one is never opened.
  fun_induction remaining r tree excluded depth n with
  | case1 n hany | case3 depth n hany =>
      obtain ⟨x, hx, hnx⟩ := List.any_eq_true.mp hany
      exact absurd (List.any_eq_true.mpr ⟨x, hx, isWithin_trans hwithin hnx⟩) houtside
  | case2 n | case5 depth n => exact ⟨n, List.mem_singleton_self n, hwithin⟩
  | case4 depth n hany hopen ih =>
      obtain ⟨hbelow, hfolder⟩ := Bool.and_eq_true_iff.mp hopen
      cases h with
      | whole _ h =>
          obtain ⟨x, hx, hxn⟩ := List.any_eq_true.mp hbelow
          exact absurd hxn (h hfolder x (htaken x hx))
      | @child _ next _ hnext hadmits h =>
          obtain ⟨q, hq, heq⟩ := ih next h (h.isWithin htree)
          exact ⟨q, List.mem_flatMap.mpr ⟨next, List.mem_filter.mpr ⟨hnext, hadmits⟩, hq⟩, heq⟩

end PathRules

/-! ### Topmost paths -/

namespace Path

variable {first second more : List Path} {p t f : Path}

theorem exists_topmost {paths : List Path} (hp : p ∈ paths) (hf : f.isWithin p = true) :
    ∃ t, Topmost paths t ∧ f.isWithin t = true := by
  obtain ⟨t, ht, hft⟩ := PathSet.exists_mem_ofList_isWithin.mpr ⟨p, hp, hf⟩
  exact ⟨t, PathSet.mem_ofList.mp ht, hft⟩

/-- Of the topmost paths only the one above the file can have changed, and then to one of the paths
put between the others. -/
theorem Topmost.eq_or_mem (hp : Topmost (first ++ second) p)
    (ht : Topmost (first ++ (more ++ second)) t) (hfp : f.isWithin p = true)
    (hft : f.isWithin t = true) : t = p ∨ t ∈ more := by
  by_cases hmore : t ∈ more
  · exact Or.inr hmore
  have htmem : t ∈ first ++ second := by
    have hmem := ht.1.mem
    simp only [List.mem_append, hmore, false_or] at hmem
    exact List.mem_append.mpr hmem
  have hpmem : p ∈ first ++ (more ++ second) := by
    have hmem := hp.1.mem
    simp only [List.mem_append] at hmem ⊢
    tauto
  have hparts : t.parts = p.parts := by
    rcases isWithin_or_isWithin hfp hft with htp | hpt
    · exact parts_eq_of_not_isBelow htp (ht.2 p hpmem)
    · exact (parts_eq_of_not_isBelow hpt (hp.2 t htmem)).symm
  have hsame : t.same = p.same := by
    funext q
    rw [same, same, hparts]
  have hpfirst : (first ++ second).find? p.same = some p := hp.1
  have htfirst : (first ++ (more ++ second)).find? p.same = some t := hsame ▸ ht.1
  rw [List.find?_append] at hpfirst htfirst
  refine Or.inl ?_
  cases hfirst : first.find? p.same with
  | some a =>
      rw [hfirst] at hpfirst htfirst
      exact (Option.some.inj htfirst).symm.trans (Option.some.inj hpfirst)
  | none =>
      rw [hfirst, Option.none_or] at hpfirst htfirst
      rw [List.find?_append] at htfirst
      cases hfound : more.find? p.same with
      | some a =>
          rw [hfound] at htfirst
          exact absurd (Option.some.inj htfirst ▸ List.mem_of_find?_eq_some hfound) hmore
      | none =>
          rw [hfound, Option.none_or, hpfirst] at htfirst
          exact (Option.some.inj htfirst).symm

end Path

namespace GroupSet

variable {s s' : GroupSet} {tree tree' : FileTree} {name : String} {p e : Path}
  {filesOf : String → List Path} {first second : List GroupEntry} {entry : GroupEntry}

/-- The entry stands for the path, by itself or through a group. -/
def Gives (s : GroupSet) (tree : FileTree) (entry : GroupEntry) (p : Path) : Prop :=
  match entry.target with
  | .path given => p ∈ pathsOf tree given
  | .group b => ∃ files, s.Resolves tree b files ∧ p ∈ files

theorem gives_of_mem_entryPaths
    (hfiles : ∀ b, entry.target = .group b → s.Resolves tree b (filesOf b))
    (hp : p ∈ entryPaths tree filesOf entry) : s.Gives tree entry p := by
  rw [entryPaths] at hp
  rw [Gives]
  cases htarget : entry.target with
  | path given =>
      rw [htarget] at hp
      exact hp
  | group b =>
      rw [htarget] at hp
      exact ⟨filesOf b, hfiles b htarget, hp⟩

/-- An entry of the group takes the path away. -/
def TakesAway (s : GroupSet) (tree : FileTree) (name : String) (x : Path) : Prop :=
  ∃ g, s.groups.get? name = some g ∧ ∃ e ∈ g.entries, e.exclude = true ∧ s.Gives tree e x

theorem takesAway_of_mem_pathsWith {g : Group} (hg : s.groups.get? name = some g)
    (hfiles : ∀ b ∈ g.references, s.Resolves tree b (filesOf b))
    (hx : p ∈ pathsWith tree filesOf true g.entries) : s.TakesAway tree name p := by
  obtain ⟨entry, hentry, hexclude, hx⟩ := mem_pathsWith.mp hx
  refine ⟨g, hg, entry, hentry, hexclude, gives_of_mem_entryPaths (fun b htarget => ?_) hx⟩
  exact hfiles b (Group.mem_references.mpr ⟨entry, hentry, htarget⟩)

/-- What an old file stays within, whatever is added next to what there is. -/
theorem exists_isWithin_combine_insert (htree : tree.Proper) {taken : Path → Prop}
    (htaken : ∀ x ∈ pathsWith tree filesOf true (first ++ entry :: second), taken x)
    (hentry : entry.exclude = false)
    (he : e ∈ s.combine tree (sidesOf tree filesOf (first ++ second)))
    (hkeeps : ∀ n ∈ entryPaths tree filesOf entry, e.isWithin n = true →
      s.rules.Keeps tree taken n e) :
    ∃ q ∈ s.combine tree (sidesOf tree filesOf (first ++ entry :: second)),
      e.isWithin q = true := by
  obtain ⟨p, hp, he⟩ := (mem_combine htree).mp he
  have hep := PathRules.isWithin_of_mem_subtract htree he
  have hincluded : pathsWith tree filesOf false (first ++ entry :: second)
      = pathsWith tree filesOf false first ++
        (entryPaths tree filesOf entry ++ pathsWith tree filesOf false second) := by
    rw [pathsWith_append, pathsWith_cons, if_pos hentry]
  have hexcluded : pathsWith tree filesOf true (first ++ entry :: second)
      = pathsWith tree filesOf true (first ++ second) := by
    rw [pathsWith_append, pathsWith_append, pathsWith_cons, hentry]
    rfl
  have hmem : p ∈ pathsWith tree filesOf false (first ++ entry :: second) := by
    have hmem := hp.1.mem
    rw [pathsWith_append] at hmem
    rw [hincluded]
    simp only [List.mem_append] at hmem ⊢
    tauto
  obtain ⟨t, ht, het⟩ := exists_topmost hmem hep
  have hremaining : ∃ q ∈ s.rules.subtract tree t
      (orderedSet (pathsWith tree filesOf true (first ++ second))), e.isWithin q = true := by
    rw [pathsWith_append] at hp
    rw [hincluded] at ht
    rcases hp.eq_or_mem ht hep het with rfl | hmore
    · exact ⟨e, he, isWithin_refl e⟩
    · refine (hkeeps t hmore het).exists_mem_remaining htree (fun x hx => ?_)
        (PathRules.not_within_of_mem_remaining he)
      exact htaken x (hexcluded ▸ (mem_orderedSet.mp hx).mem)
  obtain ⟨q, hq, heq⟩ := hremaining
  exact ⟨q, (mem_combine htree).mpr ⟨t, ht, hexcluded ▸ hq⟩, heq⟩

/-! ### One more token -/

/-- The group files are changed at one place, where a clause has one more token. -/
structure Appends (tree tree' : FileTree) (files : List GroupFile) (clause : GroupClause)
    (token : List Char) : Prop where
  folders : tree.SameFolders tree'
  written : ∃ before after, GroupSet.clauses tree files = before ++ clause :: after ∧
    GroupSet.clauses tree' files = before ++ clause.addToken token :: after

section

variable {files : List GroupFile} {clause : GroupClause} {token : List Char} {target : GroupTarget}
  {root : Path} {rules : PathRules}

/-- Other groups have the entries that they had. -/
theorem Appends.map_entries_eq (h : Appends tree tree' files clause token) {a : String}
    (ha : a ≠ clause.name) :
    ((load tree root rules files).1.groups.get? a).map Group.entries
      = ((load tree' root rules files).1.groups.get? a).map Group.entries := by
  obtain ⟨before, after, hold, hnew⟩ := h.written
  have hnamed : (clauses tree files).filter (·.name == a)
      = (clauses tree' files).filter (·.name == a) := by
    rw [hold, hnew]
    simp [GroupClause.addToken, ha.symm]
  have hentries := funext (GroupClause.entries_congr h.folders root)
  rw [map_entries_load, map_entries_load, hnamed, hentries]

theorem Appends.exists_entries_eq (h : Appends tree tree' files clause token)
    (htoken : Group.entryOfToken tree root (clause.base root) token = .ok ⟨false, target⟩)
    {g g' : Group} (hg : (load tree root rules files).1.groups.get? clause.name = some g)
    (hg' : (load tree' root rules files).1.groups.get? clause.name = some g') :
    ∃ first second, g.entries = first ++ second ∧
      g'.entries = first ++ ⟨false, target⟩ :: second := by
  obtain ⟨before, after, hold, hnew⟩ := h.written
  have hentries := entries_load hg
  have hentries' := entries_load hg'
  have hnamed : ∀ c : GroupClause, c.name = clause.name →
      (before ++ c :: after).filter (·.name == clause.name)
        = before.filter (·.name == clause.name) ++ c :: after.filter (·.name == clause.name) :=
    fun c hc => by simp [hc]
  rw [hold, hnamed clause rfl, List.flatMap_append, List.flatMap_cons, ← List.append_assoc]
    at hentries
  rw [hnew, ← funext (GroupClause.entries_congr h.folders root)] at hentries'
  rw [hnamed (clause.addToken token) rfl, List.flatMap_append, List.flatMap_cons,
    GroupClause.entries_addToken htoken, List.append_assoc, List.singleton_append,
    ← List.append_assoc] at hentries'
  exact ⟨_, _, hentries, hentries'⟩

end

/-- Groups that do not lead to the changed one resolve as before. -/
theorem Resolves.of_entries_eq (hfolders : tree.SameFolders tree') (hrules : s.rules = s'.rules)
    (hs' : s'.groups.Checked)
    (hentries : ∀ a, a ≠ name →
      (s.groups.get? a).map Group.entries = (s'.groups.get? a).map Group.entries)
    {b : String} {files : List Path} (h : s.Resolves tree b files) (hvalid : s'.groups.Valid b)
    (hb : ¬ ReflTransGen s.groups.Refers b name) : s'.Resolves tree' b files := by
  induction h with
  | @group b g filesOf hg _ _ ih =>
      have hne : b ≠ name := fun heq => hb (heq ▸ .refl)
      obtain ⟨g', hg', hvalid'⟩ := id hvalid
      have hsame : g.entries = g'.entries := by
        have heq := hentries b hne
        rw [hg, hg'] at heq
        exact Option.some.inj heq
      have hreferences : g.references = g'.references := by
        rw [Group.references, hsame, Group.references]
      have hcombine : s.combine tree (sidesOf tree filesOf g.entries)
          = s'.combine tree' (sidesOf tree' filesOf g'.entries) := by
        rw [combine_sidesOf_congr hfolders hrules, hsame]
      rw [hcombine]
      refine .group hg' hvalid' fun c hc => ?_
      rw [← hreferences] at hc
      refine ih c hc (hs'.valid_of_refers hvalid ⟨g', hg', hreferences ▸ hc⟩) fun hcname => ?_
      exact hb (hcname.head ⟨g, hg, hc⟩)

/-- A group that the changed one refers to does not lead back to it, so the change does not reach
it. -/
theorem Appends.eq_of_resolves {files : List GroupFile} {clause : GroupClause} {token : List Char}
    {root : Path} {rules : PathRules} (h : Appends tree tree' files clause token)
    (hvalid : (load tree root rules files).1.groups.Valid clause.name) {b : String}
    (hb : (load tree root rules files).1.groups.Refers clause.name b) {old new : List Path}
    (hold : (load tree root rules files).1.Resolves tree b old)
    (hnew : (load tree' root rules files).1.Resolves tree' b new) : old = new := by
  have hs := Groups.checked_marked (Groups.read tree root files)
  have hs' := Groups.checked_marked (Groups.read tree' root files)
  have hrules : (load tree root rules files).1.rules = (load tree' root rules files).1.rules :=
    (rules_load ..).trans (rules_load ..).symm
  have hback : ¬ ReflTransGen (load tree root rules files).1.groups.Refers b clause.name :=
    fun hback => hs.not_circular hvalid (.head' hb hback)
  have hsame := hold.of_entries_eq h.folders hrules hs' (fun a ha => h.map_entries_eq ha)
    hnew.valid hback
  exact hsame.unique hnew

/-- If a token that adds is put at the end of a clause and the group stays valid, everything at or
below one of its old files is at or below one of the new ones, provided that each path that the
token stands for and that the old file is in keeps it when it is opened. -/
theorem exists_isWithin_filesFor_of_appends {tree tree' : FileTree} (htree' : tree'.Proper)
    (root : Path) (rules : PathRules) (files : List GroupFile) (calls calls' : List Call)
    {clause : GroupClause} {token : List Char} (happends : Appends tree tree' files clause token)
    {target : GroupTarget}
    (htoken : Group.entryOfToken tree root (clause.base root) token = .ok ⟨false, target⟩)
    (hvalid : (load tree root rules files).1.groups.Valid clause.name)
    (hvalid' : (load tree' root rules files).1.groups.Valid clause.name) :
    let s := (load tree root rules files).1
    let s' := (load tree' root rules files).1
    ∃ kept kept', (s.filesFor tree (s.memoAfter tree calls) clause.name).1 = .ok kept ∧
      (s'.filesFor tree' (s'.memoAfter tree' calls') clause.name).1 = .ok kept' ∧
      ∀ e ∈ kept.files,
        (∀ n, s'.Gives tree' ⟨false, target⟩ n → e.isWithin n = true →
          rules.Keeps tree' (s'.TakesAway tree' clause.name) n e) →
        ∀ f : Path, f.isWithin e = true → ∃ e' ∈ kept'.files, f.isWithin e' = true := by
  intro s s'
  have hs : s.groups.Checked := Groups.checked_marked (Groups.read tree root files)
  have hs' : s'.groups.Checked := Groups.checked_marked (Groups.read tree' root files)
  obtain ⟨kept, hok, hkept, -⟩ := answers_filesFor hs hvalid (memoSound_memoAfter hs calls)
  obtain ⟨kept', hok', hkept', -⟩ := answers_filesFor hs' hvalid' (memoSound_memoAfter hs' calls')
  refine ⟨kept, kept', hok, hok', fun e he hkeeps f hf => ?_⟩
  obtain ⟨g, hg, -⟩ := id hvalid
  obtain ⟨g', hg', -⟩ := id hvalid'
  obtain ⟨filesOf, hfilesOf, hfiles⟩ := hkept.exists_of_get? hg
  obtain ⟨filesOf', hfilesOf', hfiles'⟩ := hkept'.exists_of_get? hg'
  obtain ⟨first, second, hentries, hentries'⟩ := happends.exists_entries_eq htoken hg hg'
  have hrules : s.rules = s'.rules := (rules_load ..).trans (rules_load ..).symm
  have hreferences : ∀ b ∈ g.references, b ∈ g'.references := by
    intro b hb
    obtain ⟨entry, hentry, htarget⟩ := Group.mem_references.mp hb
    refine Group.mem_references.mpr ⟨entry, ?_, htarget⟩
    rw [hentries, List.mem_append] at hentry
    rw [hentries']
    simp only [List.mem_append, List.mem_cons]
    tauto
  have hsame : ∀ entry ∈ g.entries, ∀ b, entry.target = .group b → filesOf b = filesOf' b := by
    intro entry hentry b htarget
    have hb := Group.mem_references.mpr ⟨entry, hentry, htarget⟩
    exact happends.eq_of_resolves hvalid ⟨g, hg, hb⟩ (hfilesOf b hb)
      (hfilesOf' b (hreferences b hb))
  -- The old files are those of the old entries, with the groups and the folders as they are now.
  have hold : kept.files = s'.combine tree' (sidesOf tree' filesOf' (first ++ second)) := by
    rw [hfiles, sidesOf_congr hsame, combine_sidesOf_congr happends.folders hrules, hentries]
  rw [hold] at he
  have htaken : ∀ x ∈ pathsWith tree' filesOf' true (first ++ ⟨false, target⟩ :: second),
      s'.TakesAway tree' clause.name x := fun x hx =>
    takesAway_of_mem_pathsWith hg' hfilesOf' (hentries' ▸ hx)
  have hadded : ⟨false, target⟩ ∈ g'.entries := by simp [hentries']
  have hgives : ∀ n ∈ entryPaths tree' filesOf' ⟨false, target⟩,
      s'.Gives tree' ⟨false, target⟩ n := fun n hn =>
    gives_of_mem_entryPaths
      (fun b htarget => hfilesOf' b (Group.mem_references.mpr ⟨_, hadded, htarget⟩)) hn
  obtain ⟨e', he', hee'⟩ := exists_isWithin_combine_insert htree' htaken rfl he fun n hn hen =>
    hkeeps n (hgives n hn) hen
  rw [hfiles', hentries']
  exact ⟨e', he', isWithin_trans hf hee'⟩

/-- A folder with two sources and a text, and a line of groups. -/
def mixedLibrary (line : String) : FileTree :=
  .folder [("groups", .file (.text line)),
    ("lib", .folder [("A.java", .file (.text "")), ("B.java", .file (.text "")),
      ("T.txt", .file (.text ""))])]

/-- The whole folder is added to a group of the text without the first source. -/
theorem appends_mixedLibrary :
    Appends (mixedLibrary "g = lib/T.txt -lib/A.java")
      (mixedLibrary "g = lib/T.txt -lib/A.java lib") [⟨⟨"groups"⟩, false⟩]
      ⟨⟨"groups"⟩, "g", ["lib/T.txt".toList, "-lib/A.java".toList]⟩ "lib".toList where
  folders := .folder (.cons ⟨rfl, .file _ _⟩ (.cons ⟨rfl, .refl _⟩ .nil))
  written := ⟨[], [], by decide +kernel, by decide +kernel⟩

/-- Where all files count, the text stays in the group. -/
theorem exists_isWithin_mixedLibrary :
    let tree := mixedLibrary "g = lib/T.txt -lib/A.java lib"
    let s := (load tree ⟨"."⟩ (.new [] []) [⟨⟨"groups"⟩, false⟩]).1
    ∃ kept, (s.filesFor tree (s.memoAfter tree []) "g").1 = .ok kept ∧
      ∃ e ∈ kept.files, (⟨"lib/T.txt"⟩ : Path).isWithin e = true := by
  intro tree s
  have htoken : Group.entryOfToken (mixedLibrary "g = lib/T.txt -lib/A.java") ⟨"."⟩ ⟨""⟩
      "lib".toList = .ok ⟨false, .path ⟨"lib"⟩⟩ := by decide +kernel
  obtain ⟨kept, kept', hok, hok', hwithin⟩ := exists_isWithin_filesFor_of_appends
    (FileTree.proper_of_isProper (by decide)) ⟨"."⟩ (.new [] [])
    [⟨⟨"groups"⟩, false⟩] [] [] appends_mixedLibrary htoken (by decide +kernel) (by decide +kernel)
  have hbefore : ((load (mixedLibrary "g = lib/T.txt -lib/A.java") ⟨"."⟩ (.new [] [])
      [⟨⟨"groups"⟩, false⟩]).1.filesFor (mixedLibrary "g = lib/T.txt -lib/A.java") Table.empty
        "g").1 = .ok ⟨0, [⟨"lib/T.txt"⟩]⟩ := by decide +kernel
  obtain rfl := Except.ok.inj (hok.symm.trans hbefore)
  refine ⟨kept', hok', hwithin _ List.mem_cons_self (fun n hn _ => ?_) _ (isWithin_refl _)⟩
  have hn : n ∈ pathsOf tree ⟨"lib"⟩ := hn
  have hpaths : pathsOf tree ⟨"lib"⟩ = [⟨"lib"⟩] := by decide +kernel
  obtain rfl := List.mem_singleton.mp (hpaths ▸ hn)
  have hfile : ¬ tree.hasFolder ⟨"lib/T.txt"⟩ = true := by decide +kernel
  exact .child (by decide +kernel) (by decide +kernel)
    (.whole (isWithin_refl _) fun h => absurd h hfile)

/-- Where only sources count, the folder takes the place of the text and is then opened because of
the first source, and the text is lost. -/
theorem not_isWithin_mixedLibrary_sources :
    ∃ kept kept', let tree := mixedLibrary "g = lib/T.txt -lib/A.java"
      let tree' := mixedLibrary "g = lib/T.txt -lib/A.java lib"
      let rules := PathRules.new ["java"] []
      let s := (load tree ⟨"."⟩ rules [⟨⟨"groups"⟩, false⟩]).1
      let s' := (load tree' ⟨"."⟩ rules [⟨⟨"groups"⟩, false⟩]).1
      Appends tree tree' [⟨⟨"groups"⟩, false⟩]
        ⟨⟨"groups"⟩, "g", ["lib/T.txt".toList, "-lib/A.java".toList]⟩ "lib".toList ∧
      Group.entryOfToken tree ⟨"."⟩ ⟨""⟩ "lib".toList = .ok ⟨false, .path ⟨"lib"⟩⟩ ∧
      s.groups.Valid "g" ∧ s'.groups.Valid "g" ∧
      (s.filesFor tree (s.memoAfter tree []) "g").1 = .ok kept ∧
      (s'.filesFor tree' (s'.memoAfter tree' []) "g").1 = .ok kept' ∧
      (∃ e ∈ kept.files, (⟨"lib/T.txt"⟩ : Path).isWithin e = true) ∧
      ¬ ∃ e' ∈ kept'.files, (⟨"lib/T.txt"⟩ : Path).isWithin e' = true := by
  refine ⟨⟨0, [⟨"lib/T.txt"⟩]⟩, ⟨0, [⟨"lib/B.java"⟩]⟩, appends_mixedLibrary, by decide +kernel,
    by decide +kernel, by decide +kernel, by decide +kernel, by decide +kernel, ?_, ?_⟩
  · exact ⟨_, List.mem_cons_self, isWithin_refl _⟩
  · decide +kernel

end GroupSet

end TestSelection
