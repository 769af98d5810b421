import TestSelection.FileTree
import TestSelection.Proofs.Except
import TestSelection.Proofs.Path
import TestSelection.Proofs.Table

/-!
Trees as they are on a disk: the entries of every folder have names that a file system allows, each
name once. The paths of the entries of a folder are then one part longer than its own path and lie
apart from each other.
-/

namespace TestSelection

namespace FileTree

/-- A name that an entry of a folder can have. -/
structure IsEntryName (name : String) : Prop where
  not_empty : name ≠ ""
  not_here : name ≠ "."
  not_up : name ≠ ".."
  no_slash : '/' ∉ name.toList
  no_null : '\x00' ∉ name.toList
  size_le : name.utf8ByteSize ≤ maxNameBytes

instance : DecidablePred IsEntryName := fun name =>
  decidable_of_iff (name ≠ "" ∧ name ≠ "." ∧ name ≠ ".." ∧ '/' ∉ name.toList ∧
      '\x00' ∉ name.toList ∧ name.utf8ByteSize ≤ maxNameBytes)
    ⟨fun ⟨h₁, h₂, h₃, h₄, h₅, h₆⟩ => ⟨h₁, h₂, h₃, h₄, h₅, h₆⟩,
      fun ⟨h₁, h₂, h₃, h₄, h₅, h₆⟩ => ⟨h₁, h₂, h₃, h₄, h₅, h₆⟩⟩

/-- All folders of the tree are in order. -/
inductive Proper : FileTree → Prop
  | file (content : FileContent) : Proper (.file content)
  | folder {entries : List (String × FileTree)} (hordered : Table.Ordered entries)
      (hnames : ∀ e ∈ entries, IsEntryName e.1) (hsubs : ∀ e ∈ entries, Proper e.2) :
      Proper (.folder entries)

mutual

def isProper : FileTree → Bool
  | file _ => true
  | folder entries => decide (Table.Ordered entries) && areProper entries

def areProper : List (String × FileTree) → Bool
  | [] => true
  | (name, sub) :: rest => decide (IsEntryName name) && isProper sub && areProper rest

end

mutual

theorem proper_of_isProper {tree : FileTree} (h : tree.isProper = true) : tree.Proper := by
  cases tree with
  | file content => exact .file content
  | folder entries =>
      rw [isProper, Bool.and_eq_true, decide_eq_true_eq] at h
      exact .folder h.1 (fun e he => (proper_of_areProper h.2 e he).1)
        fun e he => (proper_of_areProper h.2 e he).2

theorem proper_of_areProper {entries : List (String × FileTree)} (h : areProper entries = true) :
    ∀ e ∈ entries, IsEntryName e.1 ∧ e.2.Proper := by
  cases entries with
  | nil => exact nofun
  | cons e rest =>
      rw [areProper, Bool.and_eq_true, Bool.and_eq_true, decide_eq_true_eq] at h
      exact List.forall_mem_cons.mpr
        ⟨⟨h.1.1, proper_of_isProper h.1.2⟩, proper_of_areProper h.2⟩

end

theorem IsEntryName.ofPiece? {name : String} (h : IsEntryName name) :
    PathPart.ofPiece? name.toList = some (.name name) := by
  have hplain : ∀ s : String, name ≠ s → name.toList ≠ s.toList :=
    fun _ hne heq => hne (String.toList_injective heq)
  have hempty : name.toList ≠ [] := hplain "" h.not_empty
  have hhere : name.toList ≠ ['.'] := hplain "." h.not_here
  have hup : name.toList ≠ ['.', '.'] := hplain ".." h.not_up
  rw [PathPart.ofPiece?, if_neg (not_or.mpr ⟨hempty, hhere⟩), if_neg hup, String.ofList_toList]

variable {tree : FileTree} {p q : Path}

theorem IsEntryName.parts_join {name : String} (h : IsEntryName name) (hp : p.text ≠ "") :
    (p.join name).parts = p.parts ++ [.name name] :=
  Path.parts_join hp h.no_slash h.ofPiece?

theorem IsEntryName.fileName?_join {name : String} (h : IsEntryName name) (hp : p.text ≠ "") :
    (p.join name).fileName? = some name := by
  rw [Path.fileName?, h.parts_join hp, List.getLast?_concat]

/-- The paths of different entries lie apart, in the order of their names. -/
theorem IsEntryName.join_lt {name name' : String} (h : IsEntryName name) (h' : IsEntryName name')
    (hp : p.text ≠ "") (hlt : name < name') :
    (p.join name).Apart (p.join name') ∧ (p.join name).parts < (p.join name').parts := by
  have hless : PathPart.name name < PathPart.name name' := Or.inr ⟨rfl, hlt⟩
  refine ⟨Path.apart_of_last_ne (h.parts_join hp) (h'.parts_join hp) hless.ne, ?_⟩
  rw [h.parts_join hp, h'.parts_join hp]
  exact List.append_left_lt (List.cons_lt_cons_iff.mpr (Or.inl hless))

theorem Proper.of_at? {place : List String} {sub : FileTree} (h : tree.Proper)
    (hat : tree.at? place = some sub) : sub.Proper := by
  induction place generalizing tree with
  | nil => exact Option.some.inj hat ▸ h
  | cons name place ih =>
      rw [at?] at hat
      split at hat
      · rename_i next hfind
        cases h with
        | file content => exact nomatch hfind
        | folder _ _ hsubs => exact ih (hsubs _ (Table.mem_of_find? hfind)) hat
      · exact nomatch hat

theorem piecesOf_eq_ok {pieces : List (List Char)} (h : piecesOf p = .ok pieces) :
    p.text ≠ "" ∧ p.text.utf8ByteSize ≤ maxFollowedBytes := by
  rw [piecesOf] at h
  split_ifs at h with hnull hempty hsize
  exact ⟨fun heq => hempty (heq ▸ rfl), Nat.le_of_not_lt hsize⟩

/-- What a path leads to is at some place of the tree, and the path can be followed. -/
theorem find_eq_ok {sub : FileTree} (h : tree.find p = .ok sub) :
    (∃ place, tree.at? place = some sub) ∧ p.text ≠ "" ∧
      p.text.utf8ByteSize ≤ maxFollowedBytes := by
  rw [find] at h
  obtain ⟨place, hlocate, hat⟩ := bind_eq_ok.mp h
  rw [locate] at hlocate
  obtain ⟨pieces, hpieces, -⟩ := bind_eq_ok.mp hlocate
  refine ⟨⟨place, ?_⟩, piecesOf_eq_ok hpieces⟩
  split at hat
  · rename_i hsub
    exact Except.ok.inj hat ▸ hsub
  · exact nomatch hat

theorem hasFolder_iff :
    tree.hasFolder p = true ↔ ∃ entries, tree.find p = .ok (folder entries) := by
  rw [hasFolder]
  cases tree.find p with
  | error error => simp [Except.toOption]
  | ok sub => cases sub <;> simp [Except.toOption, isFolder]

theorem mem_children : q ∈ tree.children p ↔
    ∃ entries, tree.find p = .ok (folder entries) ∧ ∃ e ∈ entries, q = p.join e.1 := by
  rw [children]
  split
  · rename_i es hfind
    simp [hfind, eq_comm]
  · rename_i hfind
    refine iff_of_false List.not_mem_nil ?_
    rintro ⟨entries, hentries, -⟩
    exact hfind entries hentries

theorem Proper.of_find {sub : FileTree} (h : tree.Proper) (hfind : tree.find p = .ok sub) :
    sub.Proper := by
  obtain ⟨⟨place, hat⟩, -⟩ := find_eq_ok hfind
  exact h.of_at? hat

theorem Proper.parts_of_mem_children (h : tree.Proper) (hq : q ∈ tree.children p) :
    ∃ name, q.parts = p.parts ++ [.name name] := by
  obtain ⟨entries, hfind, e, he, rfl⟩ := mem_children.mp hq
  obtain ⟨-, hp, -⟩ := find_eq_ok hfind
  cases h.of_find hfind with
  | folder _ hnames _ =>
      have hname := hnames e he
      exact ⟨e.1, hname.parts_join hp⟩

theorem Proper.isBelow_of_mem_children (h : tree.Proper) (hq : q ∈ tree.children p) :
    q.isBelow p = true := by
  obtain ⟨name, hparts⟩ := h.parts_of_mem_children hq
  refine Path.isBelow_iff.mpr ⟨Path.isWithin_iff.mpr (hparts ▸ List.prefix_append _ _), ?_⟩
  rw [hparts]
  simp

theorem Proper.size_lt_of_mem_children (h : tree.Proper) (hq : q ∈ tree.children p) :
    p.text.utf8ByteSize < q.text.utf8ByteSize := by
  obtain ⟨entries, hfind, e, he, rfl⟩ := mem_children.mp hq
  cases h.of_find hfind with
  | folder _ hnames _ => exact Path.size_lt_join (hnames e he).no_slash (hnames e he).not_empty

theorem Proper.pairwise_children_lt (h : tree.Proper) (p : Path) :
    (tree.children p).Pairwise fun q q' => q.Apart q' ∧ q.parts < q'.parts := by
  rw [children]
  split
  · rename_i entries hfind
    obtain ⟨-, hp, -⟩ := find_eq_ok hfind
    cases h.of_find hfind with
    | folder hordered hnames _ =>
        refine List.pairwise_map.mpr (hordered.imp_of_mem fun {e e'} he he' hlt => ?_)
        exact (hnames e he).join_lt (hnames e' he') hp hlt
  · exact List.Pairwise.nil

theorem Proper.pairwise_children (h : tree.Proper) (p : Path) :
    (tree.children p).Pairwise Path.Apart :=
  (h.pairwise_children_lt p).imp And.left

/-- A walk through entries comes to what the walks through each of them come to, in turn. -/
theorem walkAmong_eq_flatMap (enter : String → Bool) (keep : Path → Bool) (p : Path)
    (entries : List (String × FileTree)) :
    walkAmong enter keep p entries = entries.flatMap fun e =>
      if e.2.isFolder && !enter e.1 then [] else walk enter keep (p.join e.1) e.2 := by
  induction entries with
  | nil => rfl
  | cons e rest ih => rw [walkAmong, ih, List.flatMap_cons]

theorem size_le_of_hasFolder (h : tree.hasFolder p = true) :
    p.text.utf8ByteSize ≤ maxFollowedBytes := by
  obtain ⟨entries, hfind⟩ := hasFolder_iff.mp h
  exact (find_eq_ok hfind).2.2

end FileTree

end TestSelection
