import TestSelection.Proofs.FileTree
import TestSelection.Proofs.Group.Resolution

/-!
Trees with the same folders. What the files hold does not count for where a path leads, for whether
that is a folder and for the paths of its entries. All that opens folders and asks for paths is
therefore the same for trees that differ in the texts of files alone.
-/

namespace TestSelection

namespace FileTree

/-- The names of the entries of a folder; a file has none. -/
def names? : FileTree → Option (List String)
  | folder entries => some (entries.map Prod.fst)
  | file _ => none

/-- At every place the trees have nothing, files, or folders of the same names. -/
def SameFolders (tree tree' : FileTree) : Prop :=
  ∀ place, (tree.at? place).map names? = (tree'.at? place).map names?

variable {tree tree' : FileTree}

theorem SameFolders.refl (tree : FileTree) : tree.SameFolders tree := fun _ => rfl

theorem SameFolders.symm (h : tree.SameFolders tree') : tree'.SameFolders tree :=
  fun place => (h place).symm

theorem SameFolders.file (content content' : FileContent) :
    (FileTree.file content).SameFolders (.file content') := by
  intro place
  cases place <;> rfl

theorem SameFolders.folder {entries entries' : List (String × FileTree)}
    (h : List.Forall₂ (fun e e' => e.1 = e'.1 ∧ e.2.SameFolders e'.2) entries entries') :
    (FileTree.folder entries).SameFolders (.folder entries') := by
  rintro (_ | ⟨name, rest⟩)
  · refine congrArg (some ∘ some) ?_
    induction h with
    | nil => rfl
    | cons he _ ih => rw [List.map_cons, List.map_cons, he.1, ih]
  · induction h with
    | nil => rfl
    | @cons e e' entries entries' he _ ih =>
        obtain ⟨n, sub⟩ := e
        obtain ⟨n', sub'⟩ := e'
        obtain ⟨rfl, hsub⟩ := he
        simp only [at?, FileTree.entries, Table.find?] at ih ⊢
        by_cases hname : n = name
        · simp only [if_pos hname]
          exact hsub rest
        · simp only [if_neg hname]
          exact ih

theorem isSome_find?_congr {entries entries' : List (String × FileTree)} {name : String}
    (h : entries.map Prod.fst = entries'.map Prod.fst) :
    (Table.find? name entries).isSome = (Table.find? name entries').isSome := by
  rw [Bool.eq_iff_iff, Option.isSome_iff_ne_none, Option.isSome_iff_ne_none, ne_eq, ne_eq,
    Table.find?_eq_none_iff, Table.find?_eq_none_iff, h]

theorem SameFolders.follow_eq (h : tree.SameFolders tree') (place : List String)
    (piece : List Char) : tree.follow place piece = tree'.follow place piece := by
  have hplace := h place
  rw [follow, follow]
  cases hat : tree.at? place with
  | none =>
      rw [hat, Option.map_none, eq_comm, Option.map_eq_none_iff] at hplace
      rw [hplace]
  | some sub =>
      rw [hat, Option.map_some, eq_comm, Option.map_eq_some_iff] at hplace
      obtain ⟨sub', hat', hnames⟩ := hplace
      rw [hat']
      cases sub with
      | file content =>
          cases sub' with
          | file content' => rfl
          | folder entries' => exact nomatch hnames
      | folder entries =>
          cases sub' with
          | file content' => exact nomatch hnames
          | folder entries' =>
              have hsome := fun name => @isSome_find?_congr _ _ name (Option.some.inj hnames)
              simp only [hsome]

theorem SameFolders.locate_eq (h : tree.SameFolders tree') (p : Path) :
    tree.locate p = tree'.locate p := by
  have hfollow : tree.follow = tree'.follow := funext₂ h.follow_eq
  rw [locate, locate, hfollow]

theorem toOption_find (tree : FileTree) (p : Path) :
    (tree.find p).toOption = (tree.locate p).toOption.bind tree.at? := by
  rw [find]
  cases tree.locate p with
  | error error => rfl
  | ok place =>
      simp only [bind, Except.bind, Except.toOption, Option.bind_some]
      cases tree.at? place <;> rfl

theorem SameFolders.find_eq (h : tree.SameFolders tree') (p : Path) :
    (tree.find p).toOption.map names? = (tree'.find p).toOption.map names? := by
  rw [toOption_find, toOption_find, h.locate_eq p]
  cases (tree'.locate p).toOption with
  | none => rfl
  | some place => exact h place

theorem SameFolders.hasPath_eq (h : tree.SameFolders tree') (p : Path) :
    tree.hasPath p = tree'.hasPath p := by
  have hfind := congrArg Option.isSome (h.find_eq p)
  rwa [Option.isSome_map, Option.isSome_map] at hfind

theorem isFolder_eq (tree : FileTree) : tree.isFolder = tree.names?.isSome := by
  cases tree <;> rfl

theorem SameFolders.hasFolder_eq (h : tree.SameFolders tree') (p : Path) :
    tree.hasFolder p = tree'.hasFolder p := by
  have hfind := congrArg (fun names => (names.map Option.isSome).getD false) (h.find_eq p)
  simp only [Option.map_map] at hfind
  simp only [hasFolder, funext isFolder_eq]
  exact hfind

theorem children_eq (tree : FileTree) (p : Path) :
    tree.children p = (((tree.find p).toOption.map names?).join.getD []).map p.join := by
  rw [children]
  cases tree.find p with
  | error error => rfl
  | ok sub =>
      cases sub with
      | file content => rfl
      | folder entries => simp [Except.toOption, names?]

theorem SameFolders.children_eq (h : tree.SameFolders tree') (p : Path) :
    tree.children p = tree'.children p := by
  rw [FileTree.children_eq, FileTree.children_eq, h.find_eq]

end FileTree

variable {tree tree' : FileTree}

/-! ### Groups -/

theorem PathRules.remaining_congr (h : tree.SameFolders tree') (r : PathRules)
    (excluded : List Path) (depth : Nat) (p : Path) :
    r.remaining tree excluded depth p = r.remaining tree' excluded depth p := by
  have hadmits : r.admits tree = r.admits tree' := by
    funext q
    rw [admits, admits, h.hasFolder_eq]
  induction depth generalizing p with
  | zero => rfl
  | succ depth ih => rw [remaining, remaining, h.hasFolder_eq, h.children_eq, hadmits, funext ih]

theorem GroupSet.pathsOf_congr (h : tree.SameFolders tree') : pathsOf tree = pathsOf tree' := by
  funext p
  simp only [pathsOf, Path.expandWildcard, h.children_eq]

theorem GroupSet.entryPaths_congr (h : tree.SameFolders tree') :
    entryPaths tree = entryPaths tree' := by
  funext filesOf e
  rw [entryPaths, entryPaths, pathsOf_congr h]

theorem GroupSet.combine_sidesOf_congr (h : tree.SameFolders tree') {s s' : GroupSet}
    (hrules : s.rules = s'.rules) (filesOf : String → List Path) (entries : List GroupEntry) :
    s.combine tree (sidesOf tree filesOf entries)
      = s'.combine tree' (sidesOf tree' filesOf entries) := by
  rw [sidesOf, sidesOf, entryPaths_congr h]
  simp only [combine, PathRules.subtract, hrules, PathRules.remaining_congr h]

theorem Group.entryOfToken_congr (h : tree.SameFolders tree') :
    entryOfToken tree = entryOfToken tree' := by
  have hthere : isThere tree = isThere tree' := by
    funext p
    simp only [isThere, h.hasFolder_eq, h.hasPath_eq]
  funext root base token
  rw [entryOfToken.eq_def, entryOfToken.eq_def, hthere]

end TestSelection
