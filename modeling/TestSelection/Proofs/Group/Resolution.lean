import TestSelection.Group.Resolve
import TestSelection.Proofs.Group.Definition

/-!
The files of groups. What has been found is kept, and what is found anew is put together from what
the references of a group give. Loading leaves only valid groups behind the references of a valid
group and no circles among them, so that the number of groups that a group leads to falls along
every reference. By induction on it every question about a valid group is answered, and by what a
resolution that keeps nothing gives: whatever has been kept was found in the same way.
-/

namespace TestSelection

open Relation

theorem Group.mem_references {g : Group} {name : String} :
    name ∈ g.references ↔ ∃ e ∈ g.entries, e.target = .group name := by
  rw [references, List.mem_filterMap]
  refine exists_congr fun e => and_congr_right fun _ => ?_
  cases e.target <;> simp

namespace Groups

variable {gs : Groups}

/-- Validity goes along with references, and no valid group stands on a circle. -/
structure Checked (gs : Groups) : Prop where
  valid_of_refers {a b : String} (ha : gs.Valid a) (hab : gs.Refers a b) : gs.Valid b
  not_circular {a : String} (ha : gs.Valid a) : ¬ TransGen gs.Refers a a

theorem checked_marked (gs : Groups) : gs.marked.Checked where
  valid_of_refers := by
    intro a b ha hab
    rw [(extends_marked gs).refers] at hab
    rw [valid_marked] at ha ⊢
    exact fun c hbc => ha c (hbc.head hab)
  not_circular := by
    intro a ha
    rw [(extends_marked gs).refers]
    exact (valid_marked.mp ha a .refl).1.2

def height (gs : Groups) (name : String) : Nat :=
  match gs.get? name with
  | some g => (gs.reached g).size
  | none => 0

theorem height_eq {name : String} {g : Group} (hg : gs.get? name = some g) :
    gs.height name = (gs.reached g).toFinset.card := by
  rw [height, hg, NameSet.card_toFinset]

theorem within_reached {name : String} {g : Group} (hg : gs.get? name = some g) :
    gs.Within (gs.reached g) := by
  intro b hb
  obtain ⟨c, -, -, hb⟩ := TransGen.tail'_iff.mp ((contains_reached hg).mp hb)
  exact hb

theorem height_le (gs : Groups) (name : String) : gs.height name ≤ gs.size := by
  rw [height]
  split
  · rename_i g hg
    exact (within_reached hg).size_le
  · exact Nat.zero_le _

/-- A group leads to fewer groups than what refers to it, since it does not lead to itself. -/
theorem Checked.height_lt (h : gs.Checked) {a b : String} (ha : gs.Valid a)
    (hab : gs.Refers a b) : gs.height b < gs.height a := by
  have hb := h.valid_of_refers ha hab
  have hdefined : gs.RefersDefined a b := ⟨hab, hb.contains⟩
  obtain ⟨ga, hga, -⟩ := ha
  obtain ⟨gb, hgb, -⟩ := id hb
  rw [height_eq hga, height_eq hgb]
  apply Finset.card_lt_card
  refine ⟨fun c hc => ?_, fun hsub => ?_⟩
  · rw [NameSet.mem_toFinset, contains_reached hgb] at hc
    rw [NameSet.mem_toFinset, contains_reached hga]
    exact hc.head hdefined
  · have hmem : b ∈ (gs.reached ga).toFinset := by
      rw [NameSet.mem_toFinset, contains_reached hga]
      exact .single hdefined
    have hcircle := hsub hmem
    rw [NameSet.mem_toFinset, contains_reached hgb, transGen_self_iff] at hcircle
    exact h.not_circular hb hcircle

end Groups

namespace GroupSet

variable {s : GroupSet} {tree : FileTree}

/-! ### Resolving without a memo -/

/-- The paths of an entry, where the files of groups are given. -/
def entryPaths (tree : FileTree) (filesOf : String → List Path) (e : GroupEntry) : List Path :=
  match e.target with
  | .path p => pathsOf tree p
  | .group name => filesOf name

/-- What the entries of a list add and take away, where the files of groups are given. -/
def sidesOf (tree : FileTree) (filesOf : String → List Path) (entries : List GroupEntry) : Sides :=
  entries.map fun e => (e.exclude, entryPaths tree filesOf e)

/-- Resolving a valid group by resolving its references in the same way, each time anew. -/
inductive Resolves (s : GroupSet) (tree : FileTree) : String → List Path → Prop
  | group {name : String} {g : Group} {filesOf : String → List Path}
      (hg : s.groups.get? name = some g) (hvalid : g.isValid = true)
      (hfiles : ∀ b ∈ g.references, Resolves s tree b (filesOf b)) :
      Resolves s tree name (s.combine tree (sidesOf tree filesOf g.entries))

theorem sidesOf_congr {filesOf filesOf' : String → List Path} {entries : List GroupEntry}
    (h : ∀ e ∈ entries, ∀ b, e.target = .group b → filesOf b = filesOf' b) :
    sidesOf tree filesOf entries = sidesOf tree filesOf' entries := by
  refine List.map_congr_left fun e he => ?_
  rw [entryPaths, entryPaths]
  cases htarget : e.target with
  | path p => rfl
  | group b => exact congrArg (Prod.mk e.exclude) (h e he b htarget)

theorem Resolves.unique {name : String} {files files' : List Path}
    (h : s.Resolves tree name files) (h' : s.Resolves tree name files') : files = files' := by
  induction h generalizing files' with
  | group hg _ _ ih =>
      cases h' with
      | group hg' _ hfiles' =>
          obtain rfl := Option.some.inj (hg.symm.trans hg')
          refine congrArg (s.combine tree) (sidesOf_congr fun e he b htarget => ?_)
          have hb := Group.mem_references.mpr ⟨e, he, htarget⟩
          exact ih b hb (hfiles' b hb)

theorem Resolves.valid {name : String} {files : List Path} (h : s.Resolves tree name files) :
    s.groups.Valid name := by
  cases h with
  | group hg hvalid _ => exact ⟨_, hg, hvalid⟩

theorem Resolves.exists_of_get? {name : String} {files : List Path} {g : Group}
    (h : s.Resolves tree name files) (hg : s.groups.get? name = some g) :
    ∃ filesOf : String → List Path, (∀ b ∈ g.references, s.Resolves tree b (filesOf b)) ∧
      files = s.combine tree (sidesOf tree filesOf g.entries) := by
  cases h with
  | group hg' _ hfiles =>
      obtain rfl := Option.some.inj (hg.symm.trans hg')
      exact ⟨_, hfiles, rfl⟩

/-! ### Resolving with a memo -/

/-- What is kept for a name is what resolving it anew gives. -/
def MemoSound (s : GroupSet) (tree : FileTree) (memo : GroupMemo) : Prop :=
  ∀ name kept, memo.get? name = some kept → s.Resolves tree name kept.files

/-- The answer about a name is what resolving it gives, and the memo stays sound. -/
def Answers (s : GroupSet) (tree : FileTree) (name : String)
    (answer : Except GroupError KeptFiles × GroupMemo) : Prop :=
  ∃ kept, answer.1 = .ok kept ∧ s.Resolves tree name kept.files ∧ s.MemoSound tree answer.2

theorem memoSound_empty : s.MemoSound tree Table.empty :=
  fun _ _ h => nomatch h

theorem MemoSound.insert {memo : GroupMemo} {name : String} {kept : KeptFiles}
    (hmemo : s.MemoSound tree memo) (hkept : s.Resolves tree name kept.files) :
    s.MemoSound tree (memo.insert name kept) := by
  intro other kept' h
  rw [Table.get?_insert] at h
  split at h
  · rename_i heq
    obtain rfl := Option.some.inj h
    exact heq ▸ hkept
  · exact hmemo other kept' h

theorem sidesWith_eq {files : GroupMemo → String → Except GroupError KeptFiles × GroupMemo}
    {filesOf : String → List Path} {entries : List GroupEntry} {memo : GroupMemo}
    (hfiles : ∀ e ∈ entries, ∀ b, e.target = .group b → s.Resolves tree b (filesOf b) ∧
      ∀ memo, s.MemoSound tree memo → s.Answers tree b (files memo b))
    (hmemo : s.MemoSound tree memo) :
    ∃ memo', sidesWith files tree memo entries = (.ok (sidesOf tree filesOf entries), memo') ∧
      s.MemoSound tree memo' := by
  induction entries generalizing memo with
  | nil => exact ⟨memo, rfl, hmemo⟩
  | cons e rest ih =>
      have hrest := fun e' he' => hfiles e' (List.mem_cons_of_mem e he')
      rw [sidesWith, sidesOf, List.map_cons, entryPaths]
      cases htarget : e.target with
      | path p =>
          obtain ⟨memo', heq, hmemo'⟩ := ih hrest hmemo
          exact ⟨memo', by simp [heq, Except.map, sidesOf], hmemo'⟩
      | group b =>
          obtain ⟨hb, hanswers⟩ := hfiles e List.mem_cons_self b htarget
          obtain ⟨kept, hok, hkept, hsound⟩ := hanswers memo hmemo
          obtain ⟨memo', heq, hmemo'⟩ := ih hrest hsound
          refine ⟨memo', ?_, hmemo'⟩
          simp [hok, heq, hkept.unique hb, Except.map, sidesOf]

theorem validGroup_eq_ok_iff {name : String} {g : Group} :
    s.validGroup name = .ok g ↔ s.groups.get? name = some g ∧ g.isValid = true := by
  rw [validGroup]
  cases s.groups.get? name with
  | none => simp
  | some g' =>
      by_cases hvalid : g'.isValid = true
      · simp only [hvalid, if_true, Except.ok.injEq, Option.some.injEq]
        exact ⟨fun heq => ⟨heq, heq ▸ hvalid⟩, fun h => h.1⟩
      · simp only [hvalid, Bool.false_eq_true, if_false, reduceCtorEq, Option.some.injEq, false_iff]
        exact fun h => hvalid (h.1 ▸ h.2)

/-- A valid group is answered for, if all groups that it refers to are. -/
theorem answers_filesThrough_succ {depth : Nat} {name : String} {memo : GroupMemo}
    (hname : s.groups.Valid name)
    (hreferences : ∀ b, s.groups.Refers name b → ∀ memo, s.MemoSound tree memo →
      s.Answers tree b (s.filesThrough tree depth memo b))
    (hmemo : s.MemoSound tree memo) :
    s.Answers tree name (s.filesThrough tree (depth + 1) memo name) := by
  obtain ⟨g, hg, hvalid⟩ := hname
  have hresolves : ∀ b ∈ g.references, ∃ files, s.Resolves tree b files := by
    intro b hb
    obtain ⟨kept, -, hkept, -⟩ := hreferences b ⟨g, hg, hb⟩ memo hmemo
    exact ⟨kept.files, hkept⟩
  choose! filesOf hfilesOf using hresolves
  have hentries : ∀ e ∈ g.entries, ∀ b, e.target = .group b →
      s.Resolves tree b (filesOf b) ∧ ∀ memo, s.MemoSound tree memo →
        s.Answers tree b (s.filesThrough tree depth memo b) := by
    intro e he b htarget
    have hb := Group.mem_references.mpr ⟨e, he, htarget⟩
    exact ⟨hfilesOf b hb, hreferences b ⟨g, hg, hb⟩⟩
  obtain ⟨memo', hsides, hmemo'⟩ := sidesWith_eq hentries hmemo
  rw [filesThrough, validGroup_eq_ok_iff.mpr ⟨hg, hvalid⟩]
  dsimp only
  cases hkept : memo.get? name with
  | some kept => exact ⟨kept, rfl, hmemo name kept hkept, hmemo⟩
  | none =>
      dsimp only
      rw [hsides]
      dsimp only
      cases hkept' : memo'.get? name with
      | some kept => exact ⟨kept, rfl, hmemo' name kept hkept', hmemo'⟩
      | none =>
          have hname := Resolves.group hg hvalid hfilesOf
          exact ⟨_, rfl, hname, hmemo'.insert hname⟩

/-- Every question about a valid group is answered, if more groups may be opened one below the other
than the group leads to. -/
theorem answers_filesThrough (hs : s.groups.Checked) {depth : Nat} {name : String}
    {memo : GroupMemo} (hname : s.groups.Valid name) (hdepth : s.groups.height name < depth)
    (hmemo : s.MemoSound tree memo) :
    s.Answers tree name (s.filesThrough tree depth memo name) := by
  induction depth generalizing name memo with
  | zero => exact absurd hdepth (Nat.not_lt_zero _)
  | succ depth ih =>
      refine answers_filesThrough_succ hname (fun b hb memo hmemo => ?_) hmemo
      have hlt := hs.height_lt hname hb
      exact ih (hs.valid_of_refers hname hb) (by omega) hmemo

/-! ### Depth -/

theorem sidesWith_congr
    {files files' : GroupMemo → String → Except GroupError KeptFiles × GroupMemo}
    {entries : List GroupEntry} {memo : GroupMemo}
    (h : ∀ e ∈ entries, ∀ b, e.target = .group b → ∀ memo, files memo b = files' memo b) :
    sidesWith files tree memo entries = sidesWith files' tree memo entries := by
  induction entries generalizing memo with
  | nil => rfl
  | cons e rest ih =>
      have hrest := fun memo => @ih memo fun e' he' => h e' (List.mem_cons_of_mem e he')
      rw [sidesWith, sidesWith]
      cases htarget : e.target with
      | path p => simp only [hrest]
      | group b => simp only [hrest, h e List.mem_cons_self b htarget]

/-- A greater depth than the number of groups that a group leads to makes no difference. -/
theorem filesThrough_congr (hs : s.groups.Checked) {depth depth' : Nat} {name : String}
    (hdepth : s.groups.height name < depth) (hdepth' : s.groups.height name < depth')
    (memo : GroupMemo) :
    s.filesThrough tree depth memo name = s.filesThrough tree depth' memo name := by
  induction depth generalizing name depth' memo with
  | zero => exact absurd hdepth (Nat.not_lt_zero _)
  | succ depth ih =>
      obtain ⟨depth', rfl⟩ := Nat.exists_eq_add_one_of_ne_zero (Nat.ne_zero_of_lt hdepth')
      rw [filesThrough, filesThrough]
      cases hg : s.groups.get? name with
      | none => simp only [validGroup, hg]
      | some g =>
          by_cases hvalid : g.isValid = true
          · -- Both depths are above the height of the group, so neither runs out below a reference.
            have hsides : sidesWith (s.filesThrough tree depth) tree memo g.entries
                = sidesWith (s.filesThrough tree depth') tree memo g.entries := by
              refine sidesWith_congr fun e he b htarget memo => ?_
              have hb := Group.mem_references.mpr ⟨e, he, htarget⟩
              have hlt := hs.height_lt ⟨g, hg, hvalid⟩ ⟨g, hg, hb⟩
              exact ih (by omega) (by omega) memo
            rw [validGroup_eq_ok_iff.mpr ⟨hg, hvalid⟩]
            dsimp only
            rw [hsides]
          · simp only [validGroup, hg, if_neg hvalid]

/-! ### Calls -/

/-- A question about one group or about several. -/
inductive Call
  | one (name : String)
  | all (names : List String)

/-- What a call adds to the memo. -/
def memoStep (s : GroupSet) (tree : FileTree) (memo : GroupMemo) : Call → GroupMemo
  | .one name => (s.filesFor tree memo name).2
  | .all names => (s.filesForAll tree memo names).2

def memoAfter (s : GroupSet) (tree : FileTree) (calls : List Call) : GroupMemo :=
  calls.foldl (s.memoStep tree) Table.empty

theorem filesFor_eq_error {memo : GroupMemo} {name : String} {error : GroupError}
    (h : s.validGroup name = .error error) : s.filesFor tree memo name = (.error error, memo) := by
  rw [filesFor, filesThrough, h]

theorem answers_filesFor (hs : s.groups.Checked) {name : String} {memo : GroupMemo}
    (hname : s.groups.Valid name) (hmemo : s.MemoSound tree memo) :
    s.Answers tree name (s.filesFor tree memo name) :=
  answers_filesThrough hs hname (Nat.lt_succ_of_le (s.groups.height_le name)) hmemo

/-- Questions about groups that are not valid are refused at once. -/
theorem memoSound_filesFor (hs : s.groups.Checked) {name : String} {memo : GroupMemo}
    (hmemo : s.MemoSound tree memo) : s.MemoSound tree (s.filesFor tree memo name).2 := by
  by_cases hname : s.groups.Valid name
  · obtain ⟨_, -, -, hsound⟩ := answers_filesFor hs hname hmemo
    exact hsound
  · cases h : s.validGroup name with
    | error error => rwa [filesFor_eq_error h]
    | ok g => exact absurd ⟨g, validGroup_eq_ok_iff.mp h⟩ hname

theorem memoSound_filesForEach (hs : s.groups.Checked) {names : List String} {memo : GroupMemo}
    {files : PathSet} (hmemo : s.MemoSound tree memo) :
    s.MemoSound tree (s.filesForEach tree memo files names).2 := by
  induction names generalizing memo files with
  | nil => exact hmemo
  | cons name rest ih =>
      have hname : s.MemoSound tree (s.filesFor tree memo name).2 := memoSound_filesFor hs hmemo
      rw [filesForEach]
      split
      · rename_i heq
        rw [heq] at hname
        exact hname
      · rename_i heq
        rw [heq] at hname
        exact ih hname

theorem memoSound_memoAfter (hs : s.groups.Checked) (calls : List Call) :
    s.MemoSound tree (s.memoAfter tree calls) := by
  refine List.foldlRecOn calls (s.memoStep tree) memoSound_empty fun memo hmemo call _ => ?_
  cases call with
  | one name => exact memoSound_filesFor hs hmemo
  | all names => exact memoSound_filesForEach hs hmemo

/-- Whatever has been asked before, a valid group of a loaded set has the files that resolving it
anew gives, an invalid group is refused with its problems and any other name as unknown; and the
depth to which groups may be opened does not count. -/
theorem filesFor_memoAfter (tree : FileTree) (root : Path) (rules : PathRules)
    (files : List GroupFile) (calls : List Call) (name : String) :
    let s := (load tree root rules files).1
    let answer := (s.filesFor tree (s.memoAfter tree calls) name).1
    (∀ more, s.filesThrough tree (s.groups.size + 1 + more) (s.memoAfter tree calls) name
      = s.filesFor tree (s.memoAfter tree calls) name) ∧
    match s.groups.get? name with
    | none => answer = .error (.unknown name)
    | some g =>
      if g.isValid then
        ∃ kept, answer = .ok kept ∧ ∀ files, s.Resolves tree name files ↔ files = kept.files
      else answer = .error (.invalid name g.problems) ∧ g.problems ≠ [] := by
  intro s answer
  have hs : s.groups.Checked := Groups.checked_marked (Groups.read tree root files)
  have hheight := s.groups.height_le name
  refine ⟨fun more => filesThrough_congr hs (by omega) (by omega) _, ?_⟩
  cases hg : s.groups.get? name with
  | none =>
      have hrefused : s.validGroup name = .error (.unknown name) := by rw [validGroup, hg]
      exact congrArg Prod.fst (filesFor_eq_error hrefused)
  | some g =>
      dsimp only
      split
      · rename_i hvalid
        obtain ⟨kept, hok, hkept, -⟩ :=
          answers_filesFor hs ⟨g, hg, hvalid⟩ (memoSound_memoAfter hs calls)
        exact ⟨kept, hok, fun files => ⟨fun h => h.unique hkept, fun h => h ▸ hkept⟩⟩
      · rename_i hvalid
        have hrefused : s.validGroup name = .error (.invalid name g.problems) := by
          simp only [validGroup, hg, if_neg hvalid]
        exact ⟨congrArg Prod.fst (filesFor_eq_error hrefused), Group.isValid_iff.not.mp hvalid⟩

end GroupSet

end TestSelection
