import TestSelection.Proofs.Group.Clause
import TestSelection.Proofs.Group.SameParts
import TestSelection.Proofs.Lists

/-!
The order of loading. Group files can be read in any order and the tokens of a clause can stand in
any order: the same groups are defined, the same ones are valid, and each of them has the same
entries in some order. So what they select is the same part by part, where spellings of one path are
followed alike, and the files of several groups are the same for every order of their names.
-/

namespace TestSelection

open Relation TestSelection.Path

/-! ### Clauses in another order -/

namespace GroupClause

/-- The clauses say the same, in whatever order their tokens stand. -/
structure SameUpToOrder (c c' : GroupClause) : Prop where
  file : c.file = c'.file
  name : c.name = c'.name
  tokens : c.tokens.Perm c'.tokens

variable {tree tree' : FileTree} {root : Path} {c c' : GroupClause}

theorem SameUpToOrder.symm (h : c.SameUpToOrder c') : c'.SameUpToOrder c :=
  ⟨h.file.symm, h.name.symm, h.tokens.symm⟩

theorem SameUpToOrder.base_eq (h : c.SameUpToOrder c') (root : Path) :
    c.base root = c'.base root := by
  rw [base, base, h.file]

theorem SameUpToOrder.perm_entries (hfolders : tree.SameFolders tree') (h : c.SameUpToOrder c') :
    (c.entries tree root).Perm (c'.entries tree' root) := by
  rw [entries_congr hfolders, entries, entries, h.base_eq]
  exact (h.tokens.map _).filterMap _

theorem SameUpToOrder.faulty (hfolders : tree.SameFolders tree') (h : c.SameUpToOrder c')
    (hfaulty : c.Faulty tree root) : c'.Faulty tree' root := by
  rw [Faulty, h.name, Group.entryOfToken_congr hfolders, h.base_eq] at hfaulty
  rcases hfaulty with hname | ⟨token, hmem, hproblem⟩
  · exact Or.inl hname
  · exact Or.inr ⟨token, h.tokens.mem_iff.mp hmem, hproblem⟩

end GroupClause

namespace GroupSet

variable {tree tree' : FileTree} {root : Path} {rules : PathRules} {files files' : List GroupFile}
  {name : String}

/-- The group files are read in another order, and the clauses have their tokens in another order;
nothing else is changed. -/
structure Rearranges (tree tree' : FileTree) (files files' : List GroupFile) : Prop where
  folders : tree.SameFolders tree'
  order : files.Perm files'
  tokens : ∀ file ∈ files,
    List.Forall₂ GroupClause.SameUpToOrder (clauses tree [file]) (clauses tree' [file])

theorem Rearranges.symm (h : Rearranges tree tree' files files') :
    Rearranges tree' tree files' files where
  folders := h.folders.symm
  order := h.order.symm
  tokens file hfile := by
    have hclauses := (h.tokens file (h.order.mem_iff.mpr hfile)).flip
    exact hclauses.imp fun _ _ => GroupClause.SameUpToOrder.symm

theorem rearranges_of_perm (tree : FileTree) (h : files.Perm files') :
    Rearranges tree tree files files' where
  folders := .refl tree
  order := h
  tokens _ _ := List.forall₂_same.mpr fun _ _ => ⟨rfl, rfl, .refl _⟩

theorem clauses_eq_flatMap (tree : FileTree) (files : List GroupFile) :
    clauses tree files = files.flatMap fun file => clauses tree [file] := by
  simp only [clauses, definitions, List.map_flatMap, List.flatMap_singleton]

/-- The clauses of a group, in another order, correspond to those of the other reading. -/
theorem Rearranges.exists_named (h : Rearranges tree tree' files files') (name : String) :
    ∃ cs, ((clauses tree files).filter (·.name == name)).Perm cs ∧
      List.Forall₂ GroupClause.SameUpToOrder cs
        ((clauses tree' files').filter (·.name == name)) := by
  refine ⟨(clauses tree files').filter (·.name == name), ?_, ?_⟩
  · rw [clauses_eq_flatMap, clauses_eq_flatMap tree files']
    exact (h.order.flatMap_right _).filter _
  · have hnames : ∀ ⦃c c' : GroupClause⦄, c.SameUpToOrder c' →
        ((c.name == name) = true ↔ (c'.name == name) = true) := fun c c' hc => by rw [hc.name]
    refine List.rel_filter hnames ?_
    have hfiles : List.Forall₂ (fun file file' => file = file' ∧ file ∈ files) files' files' :=
      List.forall₂_same.mpr fun file hfile => ⟨rfl, h.order.mem_iff.mpr hfile⟩
    rw [clauses_eq_flatMap, clauses_eq_flatMap tree' files']
    refine List.rel_flatMap hfiles ?_
    rintro file _ ⟨rfl, hfile⟩
    exact h.tokens file hfile

theorem perm_flatMap_entries {cs cs' : List GroupClause} (hfolders : tree.SameFolders tree')
    (h : List.Forall₂ GroupClause.SameUpToOrder cs cs') :
    (cs.flatMap (·.entries tree root)).Perm (cs'.flatMap (·.entries tree' root)) := by
  induction h with
  | nil => exact .nil
  | cons hc _ ih =>
      rw [List.flatMap_cons, List.flatMap_cons]
      exact (hc.perm_entries hfolders).append ih

theorem Rearranges.exists_mem (h : Rearranges tree tree' files files') {c : GroupClause}
    (hc : c ∈ clauses tree files) : ∃ c' ∈ clauses tree' files', c.SameUpToOrder c' := by
  obtain ⟨cs, hperm, hcs⟩ := h.exists_named c.name
  have hmem : c ∈ (clauses tree files).filter (·.name == c.name) :=
    List.mem_filter.mpr ⟨hc, beq_self_eq_true _⟩
  obtain ⟨c', hc', hsame⟩ := exists_mem_of_forall₂ hcs (hperm.mem_iff.mp hmem)
  exact ⟨c', (List.mem_filter.mp hc').1, hsame⟩

/-! ### Groups -/

theorem Rearranges.contains (h : Rearranges tree tree' files files')
    (hname : (load tree root rules files).1.groups.contains name = true) :
    (load tree' root rules files').1.groups.contains name = true := by
  obtain ⟨c, hc, rfl⟩ := contains_load.mp hname
  obtain ⟨c', hc', hsame⟩ := h.exists_mem hc
  exact contains_load.mpr ⟨c', hc', hsame.name.symm⟩

/-- The same groups with the same entries, whatever the order. -/
theorem Rearranges.alike (h : Rearranges tree tree' files files') (root : Path)
    (rules : PathRules) :
    (load tree root rules files).1.groups.Alike (load tree' root rules files').1.groups where
  contains name := Bool.eq_iff_iff.mpr ⟨h.contains, h.symm.contains⟩
  entries {name g g'} hg hg' := by
    obtain ⟨cs, hperm, hcs⟩ := h.exists_named name
    rw [entries_load hg, entries_load hg']
    exact (hperm.flatMap_right _).trans (perm_flatMap_entries h.folders hcs)

theorem Rearranges.valid (h : Rearranges tree tree' files files')
    (hname : (load tree root rules files).1.groups.Valid name) :
    (load tree' root rules files').1.groups.Valid name := by
  have halike := h.alike root rules
  rw [valid_load] at hname ⊢
  rw [← halike.refers]
  intro a ha
  obtain ⟨hdefined, hfaulty, hcircle, hentry⟩ := hname a ha
  refine ⟨h.contains hdefined, fun c' hc' hname' hfaulty' => ?_, hcircle,
    fun b hb => halike.hasEntry (hentry b hb)⟩
  obtain ⟨c, hc, hsame⟩ := h.symm.exists_mem hc'
  exact hfaulty c hc (hsame.name ▸ hname') (hsame.faulty h.symm.folders hfaulty')

theorem Rearranges.names_eq (h : Rearranges tree tree' files files') (root : Path)
    (rules : PathRules) :
    (load tree' root rules files').1.names = (load tree root rules files).1.names := by
  have hsorted : ∀ t : Groups, t.names.Pairwise (· < ·) := fun t => List.pairwise_map.mpr t.ordered
  refine (hsorted _).eq_of_mem_iff (hsorted _) fun name => ?_
  refine Table.mem_names_iff.trans (Iff.trans ?_ Table.mem_names_iff.symm)
  rw [(h.alike root rules).contains]

theorem mem_invalidNames {s : GroupSet} :
    name ∈ s.invalidNames ↔ s.groups.contains name = true ∧ ¬ s.groups.Valid name := by
  rw [invalidNames, List.mem_map, Table.contains_iff]
  constructor
  · rintro ⟨⟨n, g⟩, hmem, rfl⟩
    obtain ⟨hmem, hinvalid⟩ := List.mem_filter.mp hmem
    have hg := Table.mem_entries_iff.mp hmem
    refine ⟨⟨g, hg⟩, fun ⟨g', hg', hvalid⟩ => ?_⟩
    obtain rfl := Option.some.inj (hg.symm.trans hg')
    exact absurd hinvalid (by simp [hvalid])
  · rintro ⟨⟨g, hg⟩, hinvalid⟩
    have hvalid : ¬ g.isValid = true := fun hvalid => hinvalid ⟨g, hg, hvalid⟩
    have hmem := Table.mem_entries_iff.mpr hg
    exact ⟨(name, g), List.mem_filter.mpr ⟨hmem, by simpa using hvalid⟩, rfl⟩

theorem Rearranges.invalidNames_eq (h : Rearranges tree tree' files files') (root : Path)
    (rules : PathRules) :
    (load tree' root rules files').1.invalidNames
      = (load tree root rules files).1.invalidNames := by
  have hsorted : ∀ s : GroupSet, s.invalidNames.Pairwise (· < ·) := fun s =>
    List.pairwise_map.mpr (s.groups.ordered.filter _)
  refine (hsorted _).eq_of_mem_iff (hsorted _) fun name => ?_
  rw [mem_invalidNames, mem_invalidNames, (h.alike root rules).contains]
  exact and_congr_right fun _ => not_congr ⟨h.symm.valid, h.valid⟩

/-! ### Files -/

variable {s : GroupSet}

theorem filesForEach_cons {memo memo' : GroupMemo} {kept : KeptFiles}
    (h : s.filesFor tree memo name = (.ok kept, memo')) (files : PathSet) (rest : List String) :
    s.filesForEach tree memo files (name :: rest)
      = s.filesForEach tree memo' (kept.files.foldl PathSet.add files) rest := by
  rw [filesForEach, h]

theorem filesForEach_eq_ok (hs : s.groups.Checked) {filesOf : String → List Path}
    {names : List String} (hnames : ∀ name ∈ names, s.Resolves tree name (filesOf name))
    {memo : GroupMemo} (hmemo : s.MemoSound tree memo) (files : PathSet) :
    (s.filesForEach tree memo files names).1
      = .ok ((names.flatMap filesOf).foldl PathSet.add files) := by
  induction names generalizing memo files with
  | nil => rfl
  | cons name rest ih =>
      obtain ⟨hname, hrest⟩ := List.forall_mem_cons.mp hnames
      obtain ⟨kept, hok, hkept, hsound⟩ := answers_filesFor hs hname.valid hmemo
      rw [filesForEach_cons (Prod.ext hok rfl), ih hrest hsound, hkept.unique hname,
        List.flatMap_cons, List.foldl_append]

theorem filesForEach_eq_error (hs : s.groups.Checked) {names : List String}
    (hnames : ∃ name ∈ names, ¬ s.groups.Valid name) {memo : GroupMemo}
    (hmemo : s.MemoSound tree memo) (files : PathSet) :
    ∃ error, (s.filesForEach tree memo files names).1 = .error error := by
  induction names generalizing memo files with
  | nil => simp at hnames
  | cons name rest ih =>
      by_cases hname : s.groups.Valid name
      · obtain ⟨kept, hok, -, hsound⟩ := answers_filesFor hs hname hmemo
        rw [filesForEach_cons (Prod.ext hok rfl)]
        refine ih ?_ hsound _
        obtain ⟨other, hother, hinvalid⟩ := hnames
        rcases List.mem_cons.mp hother with rfl | hother
        · exact absurd hname hinvalid
        · exact ⟨other, hother, hinvalid⟩
      · cases hgroup : s.validGroup name with
        | ok g => exact absurd ⟨g, validGroup_eq_ok_iff.mp hgroup⟩ hname
        | error error =>
            rw [filesForEach, filesFor_eq_error hgroup]
            exact ⟨error, rfl⟩

/-- The files of several groups are the same for every order of their names. -/
theorem map_parts_filesForAll (hs : s.groups.Checked) {names names' : List String}
    (h : names.Perm names') {memo memo' : GroupMemo} (hmemo : s.MemoSound tree memo)
    (hmemo' : s.MemoSound tree memo') :
    (s.filesForAll tree memo names).1.toOption.map (·.map Path.parts)
      = (s.filesForAll tree memo' names').1.toOption.map (·.map Path.parts) := by
  by_cases hvalid : ∀ name ∈ names, s.groups.Valid name
  · have hresolves : ∀ name ∈ names, ∃ files, s.Resolves tree name files := by
      intro name hname
      obtain ⟨kept, -, hkept, -⟩ := answers_filesFor hs (hvalid name hname) hmemo
      exact ⟨kept.files, hkept⟩
    choose! filesOf hfilesOf using hresolves
    have hfilesOf' : ∀ name ∈ names', s.Resolves tree name (filesOf name) :=
      fun name hname => hfilesOf name (h.mem_iff.mpr hname)
    have hsame : SameParts (names.flatMap filesOf) (names'.flatMap filesOf) :=
      fun parts => ((h.flatMap_right _).map _).mem_iff
    rw [filesForAll, filesForAll, filesForEach_eq_ok hs hfilesOf hmemo,
      filesForEach_eq_ok hs hfilesOf' hmemo']
    exact congrArg some hsame.map_parts_ofList
  · push Not at hvalid
    obtain ⟨name, hname, hinvalid⟩ := hvalid
    obtain ⟨error, herror⟩ := filesForEach_eq_error hs ⟨name, hname, hinvalid⟩ hmemo []
    obtain ⟨error', herror'⟩ :=
      filesForEach_eq_error hs ⟨name, h.mem_iff.mp hname, hinvalid⟩ hmemo' []
    rw [filesForAll, filesForAll, herror, herror']
    rfl

/-- Both readings answer questions about a valid group by resolving it. -/
theorem Rearranges.exists_resolves (h : Rearranges tree tree' files files')
    (calls calls' : List Call) (hname : (load tree root rules files).1.groups.Valid name) :
    ∃ kept kept', ((load tree root rules files).1.filesFor tree
        ((load tree root rules files).1.memoAfter tree calls) name).1 = .ok kept ∧
      ((load tree' root rules files').1.filesFor tree'
        ((load tree' root rules files').1.memoAfter tree' calls') name).1 = .ok kept' ∧
      (load tree root rules files).1.Resolves tree name kept.files ∧
      (load tree' root rules files').1.Resolves tree' name kept'.files := by
  have hs := Groups.checked_marked (Groups.read tree root files)
  have hs' := Groups.checked_marked (Groups.read tree' root files')
  obtain ⟨kept, hok, hkept, -⟩ := answers_filesFor hs hname (memoSound_memoAfter hs calls)
  obtain ⟨kept', hok', hkept', -⟩ :=
    answers_filesFor hs' (h.valid hname) (memoSound_memoAfter hs' calls')
  exact ⟨kept, kept', hok, hok', hkept, hkept'⟩

/-- Loading does not depend on the order of the group files and of the tokens: the same groups are
defined and the same ones have something wrong with them, and a valid group has the same files part
by part, if its paths are followed alike. Nor does the order of the names count when the files of
several groups are asked for. -/
theorem load_of_rearranges {tree tree' : FileTree} (htree : tree.Proper) (root : Path)
    (rules : PathRules) {files files' : List GroupFile} (calls calls' : List Call)
    (h : Rearranges tree tree' files files') :
    let s := (load tree root rules files).1
    let s' := (load tree' root rules files').1
    s'.names = s.names ∧ s'.invalidNames = s.invalidNames ∧
    (∀ name, s.groups.Valid name → s.FollowedAlike tree name →
      ∃ kept kept', (s.filesFor tree (s.memoAfter tree calls) name).1 = .ok kept ∧
        (s'.filesFor tree' (s'.memoAfter tree' calls') name).1 = .ok kept' ∧
        kept.files.map Path.parts = kept'.files.map Path.parts) ∧
    ∀ names names', names.Perm names' →
      (s.filesForAll tree (s.memoAfter tree calls) names).1.toOption.map (·.map Path.parts)
        = (s.filesForAll tree (s.memoAfter tree calls') names').1.toOption.map
            (·.map Path.parts) := by
  intro s s'
  have hs : s.groups.Checked := Groups.checked_marked (Groups.read tree root files)
  have hmemo : ∀ calls, s.MemoSound tree (s.memoAfter tree calls) := memoSound_memoAfter hs
  have hrules : s.rules = s'.rules := (rules_load ..).trans (rules_load ..).symm
  refine ⟨h.names_eq root rules, h.invalidNames_eq root rules, fun name hvalid hfollowed => ?_,
    fun names names' hnames => map_parts_filesForAll hs hnames (hmemo calls) (hmemo calls')⟩
  obtain ⟨kept, kept', hok, hok', hkept, hkept'⟩ := h.exists_resolves calls calls' hvalid
  refine ⟨kept, kept', hok, hok', ?_⟩
  exact hkept.map_parts_eq htree h.folders hrules (h.alike root rules) hkept' hfollowed

/-- Two files that define a group of a folder without one of the files below it. -/
def splitGroup (second : String) : FileTree :=
  .folder [("s", .folder [
    ("a", .folder [("in", .folder [("y", .file (.text "")), ("z", .file (.text ""))])]),
    ("one", .file (.text "g = /a")), ("two", .file (.text second))])]

theorem proper_splitGroup : (splitGroup "g = a -a/in/y").Proper :=
  FileTree.proper_of_isProper (by decide)

/-- The two files in the other order, and the tokens of the second one too. -/
theorem rearranges_splitGroup :
    Rearranges (splitGroup "g = a -a/in/y") (splitGroup "g = -a/in/y a")
      [⟨⟨"/s/one"⟩, false⟩, ⟨⟨"/s/two"⟩, false⟩] [⟨⟨"/s/two"⟩, false⟩, ⟨⟨"/s/one"⟩, false⟩] where
  folders := .folder (.cons ⟨rfl, .folder (.cons ⟨rfl, .refl _⟩
    (.cons ⟨rfl, .file _ _⟩ (.cons ⟨rfl, .file _ _⟩ .nil)))⟩ .nil)
  order := .swap _ _ []
  tokens := by
    have hone : clauses (splitGroup "g = a -a/in/y") [⟨⟨"/s/one"⟩, false⟩]
        = clauses (splitGroup "g = -a/in/y a") [⟨⟨"/s/one"⟩, false⟩] := by decide +kernel
    have htwo : clauses (splitGroup "g = a -a/in/y") [⟨⟨"/s/two"⟩, false⟩]
        = [⟨⟨"/s/two"⟩, "g", ["a".toList, "-a/in/y".toList]⟩] := by decide +kernel
    have htwo' : clauses (splitGroup "g = -a/in/y a") [⟨⟨"/s/two"⟩, false⟩]
        = [⟨⟨"/s/two"⟩, "g", ["-a/in/y".toList, "a".toList]⟩] := by decide +kernel
    refine List.forall_mem_cons.mpr ⟨?_, List.forall_mem_singleton.mpr ?_⟩
    · rw [hone]
      exact List.forall₂_same.mpr fun _ _ => ⟨rfl, rfl, .refl _⟩
    · rw [htwo, htwo']
      exact .cons ⟨rfl, rfl, .swap _ _ []⟩ .nil

/-- Both readings give the file that is left. -/
theorem load_of_rearranges_splitGroup :
    let tree := splitGroup "g = a -a/in/y"
    let tree' := splitGroup "g = -a/in/y a"
    let s := (load tree ⟨"/s"⟩ (.new [] []) [⟨⟨"/s/one"⟩, false⟩, ⟨⟨"/s/two"⟩, false⟩]).1
    let s' := (load tree' ⟨"/s"⟩ (.new [] []) [⟨⟨"/s/two"⟩, false⟩, ⟨⟨"/s/one"⟩, false⟩]).1
    s'.names = s.names ∧
    ∃ kept kept', (s.filesFor tree (s.memoAfter tree []) "g").1 = .ok kept ∧
      (s'.filesFor tree' (s'.memoAfter tree' []) "g").1 = .ok kept' ∧
      kept.files.map Path.parts = kept'.files.map Path.parts := by
  intro tree tree' s s'
  obtain ⟨hnames, -, hfiles, -⟩ := load_of_rearranges proper_splitGroup ⟨"/s"⟩ (.new [] []) [] []
    rearranges_splitGroup
  refine ⟨hnames, hfiles "g" (by decide +kernel) (followedAlike_of_piecesOf fun p hp => ?_)⟩
  let paths : List Path := [⟨"/s/a"⟩, ⟨"/s/a/in"⟩, ⟨"/s/a/in/y"⟩, ⟨"/s/a/in/z"⟩]
  have hpieces : ∀ p ∈ paths, (FileTree.piecesOf p).isOk = true := by decide +kernel
  have hchildren : ∀ p ∈ paths, ∀ q ∈ tree.children p, q ∈ paths := by decide +kernel
  refine hpieces p ?_
  induction hp with
  | added h =>
      let g : Group := ⟨[⟨false, .path ⟨"/s/a"⟩⟩, ⟨false, .path ⟨"/s/a"⟩⟩,
        ⟨true, .path ⟨"/s/a/in/y"⟩⟩], [⟨"/s/one"⟩, ⟨"/s/two"⟩], []⟩
      have hg : s.groups.get? "g" = some g := by decide +kernel
      have hadded : ∀ e ∈ g.entries, e.exclude = false → e.target = .path ⟨"/s/a"⟩ := by decide
      have hpaths : pathsOf tree ⟨"/s/a"⟩ = [⟨"/s/a"⟩] := by decide +kernel
      obtain ⟨e, he, hexclude, given, htarget, hp⟩ := h.of_references_eq_nil hg rfl
      obtain rfl := GroupTarget.path.inj (htarget.symm.trans (hadded e he hexclude))
      rw [hpaths] at hp
      exact List.mem_singleton.mp hp ▸ List.mem_cons_self
  | child _ hq ih => exact hchildren _ ih _ hq

/-! ### A long spelling -/

section

variable {n : Nat}

/-- The folder of the group, below a root with idle points. -/
def idleFolder (n : Nat) : Path := (Path.idle ⟨"/s"⟩ n).join "a"

theorem parts_idleFolder (n : Nat) : (idleFolder n).parts = [.root, .name "s", .name "a"] := by
  have hroot : (Path.idle ⟨"/s"⟩ n).text ≠ "" := text_idle_ne_empty (by decide) n
  have hname : FileTree.IsEntryName "a" := by decide
  rw [idleFolder, parts_join hroot hname.no_slash hname.ofPiece?, parts_idle (by decide)]
  decide

theorem text_idleFolder (n : Nat) :
    idleFolder (n + 1) = ⟨(Path.idle ⟨"/s"⟩ (n + 1)).text ++ "/" ++ "a"⟩ :=
  join_idle_succ _ _ (by decide)

theorem size_idleFolder (n : Nat) : (idleFolder (n + 1)).text.utf8ByteSize = 2 * n + 6 := by
  have hroot : (Path.idle ⟨"/s"⟩ (n + 1)).text.utf8ByteSize = 2 + 2 * (n + 1) := size_idle _ _
  have hname : "/".utf8ByteSize = 1 ∧ "a".utf8ByteSize = 1 := by decide
  rw [text_idleFolder, String.utf8ByteSize_append, String.utf8ByteSize_append, hroot, hname.1,
    hname.2]
  omega

theorem find_idleFolder (hn : n + 1 ≤ 2045) :
    (splitGroup "g = a -a/in/y").find (idleFolder (n + 1))
      = .ok (.folder [("in", .folder [("y", .file (.text "")), ("z", .file (.text ""))])]) := by
  have hroot : (splitGroup "g = a -a/in/y").find ⟨"/s"⟩ = .ok (.folder [
      ("a", .folder [("in", .folder [("y", .file (.text "")), ("z", .file (.text ""))])]),
      ("one", .file (.text "g = /a")), ("two", .file (.text "g = a -a/in/y"))]) :=
    FileTree.find_eq_ok_iff.mpr ⟨by decide +kernel, by rfl⟩
  have hsize : (idleFolder (n + 1)).text.utf8ByteSize ≤ FileTree.maxFollowedBytes := by
    rw [size_idleFolder, FileTree.maxFollowedBytes]
    omega
  have hsize' : (Path.idle ⟨"/s"⟩ (n + 1)).text.utf8ByteSize ≤ FileTree.maxFollowedBytes := by
    have hs : "/s".utf8ByteSize = 2 := by decide
    rw [size_idle, hs, FileTree.maxFollowedBytes]
    omega
  rw [text_idleFolder] at hsize ⊢
  exact FileTree.find_append (find_idle hroot hsize') (by decide) rfl hsize

/-- The entry of the folder has a path that is too long. -/
theorem hasFolder_join_idleFolder (hn : n + 1 = 2045) :
    (splitGroup "g = a -a/in/y").hasFolder ((idleFolder (n + 1)).join "in") = false := by
  have hlong : FileTree.maxFollowedBytes
      < (idleFolder (n + 1)).text.utf8ByteSize + "in".utf8ByteSize := by
    have hin : "in".utf8ByteSize = 2 := by decide
    rw [size_idleFolder, hin, FileTree.maxFollowedBytes]
    omega
  exact FileTree.hasFolder_of_piecesOf_error
    (FileTree.piecesOf_join_of_lt (find_idleFolder hn.le) (by decide) hlong)

theorem parts_join_idleFolder (hn : n + 1 ≤ 2045) :
    ((idleFolder (n + 1)).join "in").parts = [.root, .name "s", .name "a", .name "in"] := by
  have hname : FileTree.IsEntryName "in" := by decide
  obtain ⟨-, hne, -⟩ := FileTree.find_eq_ok (find_idleFolder hn)
  rw [parts_join hne hname.no_slash hname.ofPiece?, parts_idleFolder]
  rfl

theorem mem_subtract_idleFolder (hn : n + 1 = 2045) :
    (idleFolder (n + 1)).join "in" ∈ (PathRules.new [] []).subtract (splitGroup "g = a -a/in/y")
      (idleFolder (n + 1)) [⟨"/s/a/in/y"⟩] := by
  have hfind := find_idleFolder hn.le
  have hparts := parts_idleFolder (n + 1)
  have hparts' := parts_join_idleFolder hn.le
  have hy : (⟨"/s/a/in/y"⟩ : Path).parts
      = [.root, .name "s", .name "a", .name "in", .name "y"] := by decide
  have hfolder := FileTree.hasFolder_iff.mpr ⟨_, hfind⟩
  have hnofolder := hasFolder_join_idleFolder hn
  have hchildren : (splitGroup "g = a -a/in/y").children (idleFolder (n + 1))
      = [(idleFolder (n + 1)).join "in"] := by
    rw [FileTree.children, hfind]
    rfl
  have hadmits : (PathRules.new [] []).admits (splitGroup "g = a -a/in/y")
      ((idleFolder (n + 1)).join "in") = true := by
    rw [PathRules.admits, hnofolder]
    rfl
  have hopen : ¬ [(⟨"/s/a/in/y"⟩ : Path)].any (idleFolder (n + 1)).isWithin = true ∧
      ([(⟨"/s/a/in/y"⟩ : Path)].any (·.isBelow (idleFolder (n + 1))) &&
        (splitGroup "g = a -a/in/y").hasFolder (idleFolder (n + 1))) = true := by
    simp only [List.any_cons, List.any_nil, isBelow, isWithin, same, hparts, hy, hfolder]
    decide
  rw [PathRules.subtract, PathRules.remaining, if_neg hopen.1, if_pos hopen.2, hchildren,
    List.filter_cons_of_pos hadmits]
  refine List.mem_flatMap.mpr ⟨_, List.mem_cons_self, PathRules.mem_remaining_self ?_ ?_ _⟩
  · simp only [List.any_cons, List.any_nil, isWithin, hparts', hy]
    decide
  · rw [hnofolder, Bool.and_false]
    exact Bool.false_ne_true

/-- The clause of the first file, whose path starts from the root. -/
def longClause : GroupClause := ⟨⟨"/s/one"⟩, "g", [['/', 'a']]⟩

/-- The clause of the second file, whose paths start from its folder. -/
def shortClause : GroupClause :=
  ⟨⟨"/s/two"⟩, "g", [['a'], ['-', 'a', '/', 'i', 'n', '/', 'y']]⟩

theorem map_entryOfToken_longClause (hn : n + 1 = 2045) :
    longClause.tokens.map (Group.entryOfToken (splitGroup "g = a -a/in/y")
        (Path.idle ⟨"/s"⟩ (n + 1)) (longClause.base (Path.idle ⟨"/s"⟩ (n + 1))))
      = [⟨false, .path (idleFolder (n + 1))⟩].map .ok := by
  have hthere : Group.isThere (splitGroup "g = a -a/in/y") (idleFolder (n + 1)) = true := by
    rw [Group.isThere, hasWildcard, fileName?, parts_idleFolder, FileTree.hasPath,
      find_idleFolder hn.le]
    rfl
  rw [longClause, List.map_singleton, List.map_singleton, Group.entryOfToken.eq_def]
  exact congrArg (fun entry => [entry]) (if_pos hthere)

theorem map_entryOfToken_shortClause (root : Path) :
    shortClause.tokens.map (Group.entryOfToken (splitGroup "g = a -a/in/y") root
        (shortClause.base root))
      = [⟨false, .path ⟨"/s/a"⟩⟩, ⟨true, .path ⟨"/s/a/in/y"⟩⟩].map .ok := by
  have hbase : shortClause.base root = ⟨"/s"⟩ := by
    have hparent : (⟨"/s/two"⟩ : Path).parent? = some ⟨"/s"⟩ := by decide +kernel
    rw [GroupClause.base, shortClause, hparent, Option.getD_some]
  have hthere : Group.isThere (splitGroup "g = a -a/in/y") ⟨"/s/a"⟩ = true ∧
      Group.isThere (splitGroup "g = a -a/in/y") ⟨"/s/a/in/y"⟩ = true := by decide +kernel
  rw [hbase, shortClause, List.map_cons, List.map_singleton, Group.entryOfToken.eq_def,
    Group.entryOfToken.eq_def]
  exact congrArg₂ (fun first second => [first, second]) (if_pos hthere.1) (if_pos hthere.2)

def longFirst : List GroupFile := [⟨⟨"/s/one"⟩, false⟩, ⟨⟨"/s/two"⟩, false⟩]

def longLast : List GroupFile := [⟨⟨"/s/two"⟩, false⟩, ⟨⟨"/s/one"⟩, false⟩]

theorem clauses_splitGroup :
    clauses (splitGroup "g = a -a/in/y") longFirst = [longClause, shortClause] ∧
      clauses (splitGroup "g = a -a/in/y") longLast = [shortClause, longClause] := by
  constructor <;> decide +kernel

/-- The groups of the files, read in the given order below a root with idle points. -/
def idleGroups (n : Nat) (files : List GroupFile) : GroupSet :=
  (load (splitGroup "g = a -a/in/y") (Path.idle ⟨"/s"⟩ n) (.new [] []) files).1

/-- The entries of the group if the file with the long spelling is read first, and last. -/
theorem entries_splitGroup (hn : n + 1 = 2045) :
    (∀ g, (idleGroups (n + 1) longFirst).groups.get? "g" = some g →
      g.entries = [⟨false, .path (idleFolder (n + 1))⟩, ⟨false, .path ⟨"/s/a"⟩⟩,
        ⟨true, .path ⟨"/s/a/in/y"⟩⟩]) ∧
    ∀ g, (idleGroups (n + 1) longLast).groups.get? "g" = some g →
      g.entries = [⟨false, .path ⟨"/s/a"⟩⟩, ⟨true, .path ⟨"/s/a/in/y"⟩⟩,
        ⟨false, .path (idleFolder (n + 1))⟩] := by
  have hlong := GroupClause.entries_eq_of_map_eq (map_entryOfToken_longClause hn)
  have hshort := fun root => GroupClause.entries_eq_of_map_eq (map_entryOfToken_shortClause root)
  have hnamed : [longClause, shortClause].filter (·.name == "g") = [longClause, shortClause] ∧
      [shortClause, longClause].filter (·.name == "g") = [shortClause, longClause] := by decide
  refine ⟨fun g hg => ?_, fun g hg => ?_⟩
  · rw [entries_load hg, clauses_splitGroup.1, hnamed.1, List.flatMap_cons,
      List.flatMap_singleton, hlong, hshort]
    rfl
  · rw [entries_load hg, clauses_splitGroup.2, hnamed.2, List.flatMap_cons,
      List.flatMap_singleton, hlong, hshort]
    rfl

theorem valid_splitGroup (hn : n + 1 = 2045) :
    (idleGroups (n + 1) longFirst).groups.Valid "g" := by
  have hnone : ∀ b, ¬ (idleGroups (n + 1) longFirst).groups.Refers "g" b := by
    rintro b ⟨g, hg, hb⟩
    obtain ⟨e, he, htarget⟩ := Group.mem_references.mp hb
    rw [(entries_splitGroup hn).1 g hg] at he
    simp only [List.mem_cons, List.not_mem_nil, or_false] at he
    rcases he with rfl | rfl | rfl <;> exact nomatch htarget
  refine valid_load.mpr fun a ha => ?_
  rcases ReflTransGen.cases_head ha with rfl | ⟨b, hb, -⟩
  · refine ⟨contains_load.mpr ?_, ?_, fun hcircle => ?_, fun b hb => absurd hb (hnone b)⟩
    · rw [clauses_splitGroup.1]
      exact ⟨_, List.mem_cons_self, rfl⟩
    · have hlong := GroupClause.not_faulty_of_map_eq (by decide) (map_entryOfToken_longClause hn)
      have hshort := GroupClause.not_faulty_of_map_eq (by decide)
        (map_entryOfToken_shortClause (Path.idle ⟨"/s"⟩ (n + 1)))
      rw [clauses_splitGroup.1]
      exact List.forall_mem_cons.mpr
        ⟨fun _ => hlong, List.forall_mem_singleton.mpr fun _ => hshort⟩
    · obtain ⟨b, hb, -⟩ := TransGen.head'_iff.mp hcircle
      exact hnone b hb
  · exact absurd hb (hnone b)

theorem pathsOf_splitGroup (n : Nat) :
    pathsOf (splitGroup "g = a -a/in/y") (idleFolder n) = [idleFolder n] ∧
      pathsOf (splitGroup "g = a -a/in/y") ⟨"/s/a"⟩ = [⟨"/s/a"⟩] ∧
      pathsOf (splitGroup "g = a -a/in/y") ⟨"/s/a/in/y"⟩ = [⟨"/s/a/in/y"⟩] := by
  refine ⟨?_, by decide +kernel, by decide +kernel⟩
  rw [pathsOf, hasWildcard, fileName?, parts_idleFolder]
  rfl

theorem parts_eq_idleFolder (n : Nat) : (idleFolder n).parts = (⟨"/s/a"⟩ : Path).parts := by
  rw [parts_idleFolder]
  decide

/-- If the long spelling is read first, the folder in the folder is left whole, because its path
cannot be followed. -/
theorem join_mem_of_resolves (hn : n + 1 = 2045) {files : List Path}
    (h : (idleGroups (n + 1) longFirst).Resolves (splitGroup "g = a -a/in/y") "g" files) :
    (idleFolder (n + 1)).join "in" ∈ files := by
  obtain ⟨g, hg, -⟩ := h.valid
  obtain ⟨filesOf, -, hfiles⟩ := h.exists_of_get? hg
  obtain ⟨hlong, hshort, hy⟩ := pathsOf_splitGroup (n + 1)
  have htopmost : Topmost [idleFolder (n + 1), ⟨"/s/a"⟩] (idleFolder (n + 1)) := by
    refine ⟨List.find?_cons_of_pos (same_iff.mpr rfl), fun q hq hbelow => ?_⟩
    rcases List.mem_pair.mp hq with rfl | rfl
    · exact not_isBelow_self _ hbelow
    · exact (isBelow_iff.mp hbelow).2 (parts_eq_idleFolder (n + 1))
  rw [hfiles, (entries_splitGroup hn).1 g hg, mem_combine proper_splitGroup]
  simp only [pathsWith_cons, entryPaths, hlong, hshort, hy]
  exact ⟨_, htopmost, mem_subtract_idleFolder hn⟩

/-- If it is read last, the folder is opened further. -/
theorem eq_of_mem_of_resolves (hn : n + 1 = 2045) {files : List Path}
    (h : (idleGroups (n + 1) longLast).Resolves (splitGroup "g = a -a/in/y") "g" files)
    {q : Path} (hq : q ∈ files) : q = ⟨"/s/a/in/z"⟩ := by
  obtain ⟨g, hg, -⟩ := h.valid
  obtain ⟨filesOf, -, hfiles⟩ := h.exists_of_get? hg
  obtain ⟨hlong, hshort, hy⟩ := pathsOf_splitGroup (n + 1)
  rw [hfiles, (entries_splitGroup hn).2 g hg, mem_combine proper_splitGroup] at hq
  simp only [pathsWith_cons, entryPaths, hlong, hshort, hy] at hq
  obtain ⟨p, (hp : Topmost [⟨"/s/a"⟩, idleFolder (n + 1)] p), hq⟩ := hq
  have hshorter : p = ⟨"/s/a"⟩ := by
    have hsame : p.same ⟨"/s/a"⟩ = true := by
      rcases List.mem_pair.mp hp.1.mem with rfl | rfl
      · exact same_iff.mpr rfl
      · exact same_iff.mpr (parts_eq_idleFolder (n + 1))
    have hfirst : [(⟨"/s/a"⟩ : Path), idleFolder (n + 1)].find? p.same = some p := hp.1
    rw [List.find?_cons_of_pos hsame] at hfirst
    exact (Option.some.inj hfirst).symm
  have hsubtract : (PathRules.new [] []).subtract (splitGroup "g = a -a/in/y") ⟨"/s/a"⟩
      (orderedSet [⟨"/s/a/in/y"⟩]) = [⟨"/s/a/in/z"⟩] := by decide +kernel
  rw [hshorter] at hq
  exact List.mem_singleton.mp (hsubtract ▸ hq)

end

/-- Below a root so long that an entry of the folder has too long a path, what remains of the folder
depends on which of its spellings is read first. -/
theorem not_sameParts_idleRoot :
    ∃ kept kept', let tree := splitGroup "g = a -a/in/y"
      let root := Path.idle ⟨"/s"⟩ 2045
      let s := (load tree root (.new [] []) [⟨⟨"/s/one"⟩, false⟩, ⟨⟨"/s/two"⟩, false⟩]).1
      let s' := (load tree root (.new [] []) [⟨⟨"/s/two"⟩, false⟩, ⟨⟨"/s/one"⟩, false⟩]).1
      Rearranges tree tree [⟨⟨"/s/one"⟩, false⟩, ⟨⟨"/s/two"⟩, false⟩]
        [⟨⟨"/s/two"⟩, false⟩, ⟨⟨"/s/one"⟩, false⟩] ∧
      s.groups.Valid "g" ∧ (s.filesFor tree (s.memoAfter tree []) "g").1 = .ok kept ∧
      (s'.filesFor tree (s'.memoAfter tree []) "g").1 = .ok kept' ∧
      ¬ SameParts kept.files kept'.files := by
  have hn : 2044 + 1 = 2045 := rfl
  have hrearranges : Rearranges (splitGroup "g = a -a/in/y") (splitGroup "g = a -a/in/y")
      [⟨⟨"/s/one"⟩, false⟩, ⟨⟨"/s/two"⟩, false⟩] [⟨⟨"/s/two"⟩, false⟩, ⟨⟨"/s/one"⟩, false⟩] :=
    rearranges_of_perm _ (.swap _ _ [])
  obtain ⟨kept, kept', hok, hok', hkept, hkept'⟩ :=
    hrearranges.exists_resolves [] [] (valid_splitGroup hn)
  refine ⟨kept, kept', hrearranges, valid_splitGroup hn, hok, hok', fun hsame => ?_⟩
  obtain ⟨q, hq, hparts⟩ := hsame.exists_mem (join_mem_of_resolves hn hkept)
  rw [eq_of_mem_of_resolves hn hkept' hq, parts_join_idleFolder hn.le] at hparts
  exact absurd hparts (by decide)

end GroupSet

end TestSelection
