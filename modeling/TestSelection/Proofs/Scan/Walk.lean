import Mathlib.Data.List.DropRight
import TestSelection.Group.PathSet
import TestSelection.Proofs.Following
import TestSelection.Scan.Files

/-!
What a folder stands for. A scan walks through it and leaves out some folders by their names and
some files by their extensions; a set of paths opens it, and then its folders, and asks of each
entry whether it counts. Both come to the same files. The walk goes by the names of entries, which
it has at hand, and the rules of the set by the paths of entries, which they follow through the
tree: the two agree because the path of an entry leads to it, or is too long to be followed.
-/

namespace TestSelection

/-! ### Extensions -/

namespace CommentRegistry

/-- All extensions are written without points before them. -/
def IsBare (r : CommentRegistry) : Prop :=
  ∀ extension ∈ r.extensions, Text.dropFront '.' extension = extension

theorem dropFront_dropFront (extension : String) :
    Text.dropFront '.' (Text.dropFront '.' extension) = Text.dropFront '.' extension := by
  rw [Text.dropFront, Text.dropFront, Chars.dropFront, Chars.dropFront, String.toList_ofList,
    List.dropWhile_idempotent]

variable {r : CommentRegistry}

theorem mem_extensions_iff {extension : String} :
    extension ∈ r.extensions ↔ (r.styles.get? extension).isSome = true :=
  Table.mem_names_iff

theorem mem_extensions_register {extension name : String} {style : CommentStyle} :
    name ∈ (r.register extension style).extensions ↔
      Text.dropFront '.' extension = name ∨ name ∈ r.extensions := by
  rw [mem_extensions_iff, mem_extensions_iff, register, Table.get?_insert]
  split <;> simp [*]

theorem IsBare.register (h : r.IsBare) (extension : String) (style : CommentStyle) :
    (r.register extension style).IsBare := by
  intro name hname
  rcases mem_extensions_register.mp hname with rfl | hname
  · exact dropFront_dropFront extension
  · exact h name hname

theorem IsBare.registerAll (h : r.IsBare) (styles : List (String × CommentStyle)) :
    (r.registerAll styles).IsBare :=
  List.foldlRecOn styles _ h fun _ hr e _ => hr.register e.1 e.2

theorem mem_extensions_registerAll {name : String} (styles : List (String × CommentStyle))
    (h : name ∈ r.extensions) : name ∈ (r.registerAll styles).extensions :=
  List.foldlRecOn (motive := fun r : CommentRegistry => name ∈ r.extensions) styles _ h
    fun _ hr _ _ => mem_extensions_register.mpr (Or.inr hr)

theorem supports_eq (p : Path) :
    r.supports p = match p.extension? with
      | some extension => r.styles.contains extension
      | none => false := by
  rw [supports, styleOf?]
  cases p.extension? <;> rfl

end CommentRegistry

namespace SuiteConfig

theorem isBare_commentRegistry (suite : SuiteConfig) : suite.commentRegistry.IsBare := by
  have hempty : CommentRegistry.empty.IsBare := List.forall_mem_nil _
  exact (hempty.registerAll _).registerAll _

theorem java_mem_extensions (suite : SuiteConfig) : "java" ∈ suite.commentRegistry.extensions :=
  CommentRegistry.mem_extensions_registerAll _ (by decide)

end SuiteConfig

/-! ### Rules -/

namespace PathRules

/-- The rules say of folders what `enter` says of their names, and of all else what `keep` says. -/
structure Agrees (r : PathRules) (enter : String → Bool) (keep : Path → Bool) : Prop where
  folder : ∀ {tree : FileTree} {p : Path} {name : String}, tree.hasFolder p = true →
    p.fileName? = some name → r.admits tree p = enter name
  other : ∀ {tree : FileTree} {p : Path}, tree.hasFolder p = false → r.admits tree p = keep p

theorem contains_extensions_new {extensions ignored : List String}
    (h : ∀ extension ∈ extensions, Text.dropFront '.' extension = extension) (name : String) :
    (new extensions ignored).extensions.contains name = true ↔ name ∈ extensions := by
  rw [new, NameSet.contains_ofNames, List.map_congr_left h, List.map_id']

/-- A suite's rules for sets of paths are its rules for scans. -/
theorem agrees_forSuite (suite : SuiteConfig) :
    (forSuite suite suite.commentRegistry.extensions).Agrees
      (fun name => !suite.ignoredNames.contains name) suite.commentRegistry.supports := by
  constructor
  · intro tree p name hfolder hname
    rw [admits, if_pos hfolder, hname, forSuite, new, Option.getD_some]
    rw [Bool.eq_iff_iff, Bool.not_eq_true', Bool.not_eq_true', ← Bool.not_eq_true,
      NameSet.contains_ofNames, Table.mem_names_iff, Bool.not_eq_true]
  · intro tree p hfolder
    have hcontains (name : String) :
        (forSuite suite suite.commentRegistry.extensions).extensions.contains name
          = suite.commentRegistry.styles.contains name := by
      rw [Bool.eq_iff_iff, forSuite, contains_extensions_new suite.isBare_commentRegistry]
      exact Table.mem_names_iff
    have hsome : (forSuite suite suite.commentRegistry.extensions).extensions.entries.isEmpty
        = false := by
      have hjava := (hcontains "java").trans (Table.mem_names_iff.mp suite.java_mem_extensions)
      obtain ⟨value, hvalue⟩ := Table.contains_iff.mp hjava
      exact List.isEmpty_eq_false_iff.mpr (List.ne_nil_of_mem (Table.mem_entries_iff.mpr hvalue))
    rw [admits, if_neg (Bool.not_eq_true _ ▸ hfolder), hsome, Bool.false_or,
      CommentRegistry.supports_eq]
    cases p.extension? with
    | none => rfl
    | some extension => exact hcontains extension

/-- The folder that the first path leads to holds the file that the second one names: it is reached
by opening folders, of whose entries only those are kept that the rules admit. -/
inductive Holds (r : PathRules) (tree : FileTree) : Path → Path → Prop
  | file {p : Path} {entries : List (String × FileTree)} {name : String} {content : FileContent}
      (hopen : tree.find p = .ok (.folder entries)) (hentry : (name, .file content) ∈ entries)
      (hadmits : r.admits tree (p.join name) = true) : Holds r tree p (p.join name)
  | folder {p file : Path} {entries below : List (String × FileTree)} {name : String}
      (hopen : tree.find p = .ok (.folder entries)) (hentry : (name, .folder below) ∈ entries)
      (hadmits : r.admits tree (p.join name) = true)
      (hbelow : Holds r tree (p.join name) file) : Holds r tree p file

end PathRules

/-! ### The walk -/

namespace FileTree

variable {tree : FileTree} {p q : Path} {enter : String → Bool} {keep : Path → Bool}

def filesOnWalk (enter : String → Bool) (keep : Path → Bool) (p : Path) (t : FileTree) :
    List Path :=
  (walk enter keep p t).filterMap Visit.file?

theorem filesOnWalk_file (content : FileContent) :
    filesOnWalk enter keep p (file content) = if keep p then [p] else [] := by
  rw [filesOnWalk, walk]
  split <;> rfl

theorem filesOnWalk_of_ok {pieces : List (List Char)} (h : piecesOf p = .ok pieces)
    (entries : List (String × FileTree)) :
    filesOnWalk enter keep p (folder entries) = entries.flatMap fun e =>
      if e.2.isFolder && !enter e.1 then [] else filesOnWalk enter keep (p.join e.1) e.2 := by
  rw [filesOnWalk, walk, h]
  dsimp only
  rw [walkAmong_eq_flatMap, List.filterMap_flatMap]
  congr 1
  funext e
  split <;> rfl

theorem filesOnWalk_of_error {error : FileError} (h : piecesOf p = .error error)
    (entries : List (String × FileTree)) : filesOnWalk enter keep p (folder entries) = [] := by
  rw [filesOnWalk, walk, h]
  rfl

theorem mem_filesOnWalk_folder {pieces : List (List Char)} (h : piecesOf p = .ok pieces)
    {entries : List (String × FileTree)} :
    q ∈ filesOnWalk enter keep p (folder entries) ↔
      ∃ e ∈ entries, (e.2.isFolder = true → enter e.1 = true) ∧
        q ∈ filesOnWalk enter keep (p.join e.1) e.2 := by
  rw [filesOnWalk_of_ok h, List.mem_flatMap]
  refine exists_congr fun e => and_congr_right fun _ => ?_
  split <;> simp_all

theorem IsEntryName.join_ne_empty {name : String} (h : IsEntryName name) (p : Path) :
    (p.join name).text ≠ "" := by
  have hsize := @Path.size_lt_join p name h.no_slash h.not_empty
  intro hempty
  rw [hempty] at hsize
  exact absurd hsize (Nat.not_lt_zero _)

/-- Whatever a walk comes to is within where it starts. -/
theorem isWithin_of_mem_filesOnWalk (htree : tree.Proper) (hp : p.text ≠ "")
    (hq : q ∈ filesOnWalk enter keep p tree) : q.isWithin p = true := by
  induction htree generalizing p with
  | file content =>
      rw [filesOnWalk_file] at hq
      split at hq
      · exact List.mem_singleton.mp hq ▸ Path.isWithin_refl p
      · exact nomatch hq
  | @folder entries _ hnames _ ih =>
      cases hpieces : piecesOf p with
      | error error =>
          rw [filesOnWalk_of_error hpieces] at hq
          exact nomatch hq
      | ok pieces =>
          obtain ⟨e, he, -, hq⟩ := (mem_filesOnWalk_folder hpieces).mp hq
          have hbelow := ih e he ((hnames e he).join_ne_empty p) hq
          refine Path.isWithin_trans hbelow (Path.isWithin_iff.mpr ?_)
          rw [(hnames e he).parts_join hp]
          exact List.prefix_append _ _

/-- A walk comes to files in the order of paths: below one entry by induction, and below two by the
names of the entries. -/
theorem pairwise_filesOnWalk (htree : tree.Proper) (hp : p.text ≠ "") :
    (filesOnWalk enter keep p tree).Pairwise fun f g => f.less g = true := by
  induction htree generalizing p with
  | file content =>
      rw [filesOnWalk_file]
      split
      · exact List.pairwise_singleton _ _
      · exact List.Pairwise.nil
  | @folder entries hordered hnames hsubs ih =>
      cases hpieces : piecesOf p with
      | error error =>
          rw [filesOnWalk_of_error hpieces]
          exact List.Pairwise.nil
      | ok pieces =>
          rw [filesOnWalk_of_ok hpieces, List.pairwise_flatMap]
          constructor
          · intro e he
            split
            · exact List.Pairwise.nil
            · exact ih e he ((hnames e he).join_ne_empty p)
          · refine hordered.imp_of_mem fun {d e} hd he hlt f hf g hg => ?_
            split at hf
            · exact nomatch hf
            split at hg
            · exact nomatch hg
            have hwithin {e : String × FileTree} (he : e ∈ entries) {f : Path}
                (hf : f ∈ filesOnWalk enter keep (p.join e.1) e.2) :
                f.isWithin (p.join e.1) = true :=
              isWithin_of_mem_filesOnWalk (hsubs e he) ((hnames e he).join_ne_empty p) hf
            obtain ⟨hapart, hparts⟩ := (hnames d hd).join_lt (hnames e he) hp hlt
            exact Path.less_iff.mpr (hapart.parts_lt hparts (hwithin hd hf) (hwithin he hg))

/-- The path of an entry leads to it, or cannot be followed. -/
theorem Proper.find_join {entries : List (String × FileTree)} {name : String} {sub : FileTree}
    (htree : tree.Proper) (hopen : tree.find p = .ok (FileTree.folder entries))
    (hentry : (name, sub) ∈ entries) :
    tree.find (p.join name) = .ok sub ∨ ∃ error, piecesOf (p.join name) = .error error := by
  cases htree.of_find hopen with
  | folder hordered hnames _ =>
      cases hpieces : piecesOf (p.join name) with
      | error error => exact Or.inr ⟨error, rfl⟩
      | ok pieces =>
          have hsub := Table.find?_of_mem hordered.nodup hentry
          exact Or.inl (FileTree.find_join hopen (hnames _ hentry) hsub hpieces)

theorem Proper.hasFolder_join_file {entries : List (String × FileTree)} {name : String}
    {content : FileContent} (htree : tree.Proper)
    (hopen : tree.find p = .ok (FileTree.folder entries))
    (hentry : (name, FileTree.file content) ∈ entries) :
    tree.hasFolder (p.join name) = false := by
  rcases htree.find_join hopen hentry with hfind | ⟨error, herror⟩
  · rw [hasFolder, hfind]
    rfl
  · exact hasFolder_of_piecesOf_error herror

end FileTree

namespace PathRules

variable {r : PathRules} {tree : FileTree} {p file : Path}

/-- A folder that cannot be opened holds nothing. -/
theorem Holds.find (h : r.Holds tree p file) :
    ∃ entries, tree.find p = .ok (.folder entries) := by
  cases h with
  | file hopen => exact ⟨_, hopen⟩
  | folder hopen => exact ⟨_, hopen⟩

/-- A folder holds the files among its entries and what the folders among them hold. -/
theorem holds_iff {entries : List (String × FileTree)}
    (hopen : tree.find p = .ok (.folder entries)) :
    r.Holds tree p file ↔ ∃ e ∈ entries, r.admits tree (p.join e.1) = true ∧
      ((e.2.isFolder = false ∧ file = p.join e.1) ∨
        (e.2.isFolder = true ∧ r.Holds tree (p.join e.1) file)) := by
  constructor
  · intro h
    cases h with
    | file hopen' hentry hadmits =>
        obtain rfl := FileTree.folder.inj (Except.ok.inj (hopen.symm.trans hopen'))
        exact ⟨_, hentry, hadmits, Or.inl ⟨rfl, rfl⟩⟩
    | folder hopen' hentry hadmits hbelow =>
        obtain rfl := FileTree.folder.inj (Except.ok.inj (hopen.symm.trans hopen'))
        exact ⟨_, hentry, hadmits, Or.inr ⟨rfl, hbelow⟩⟩
  · rintro ⟨⟨name, sub⟩, hentry, hadmits, ⟨hfile, rfl⟩ | ⟨hfolder, hbelow⟩⟩
    · cases sub with
      | file content => exact .file hopen hentry hadmits
      | folder below => exact nomatch hfile
    · cases sub with
      | file content => exact nomatch hfolder
      | folder below => exact .folder hopen hentry hadmits hbelow

/-- A walk through a folder comes to the files that the folder holds. The induction is on the tree
that is walked through, of which the path that leads to it is not a part. -/
theorem Agrees.mem_filesOnWalk_iff {enter : String → Bool} {keep : Path → Bool}
    (hr : r.Agrees enter keep) (htree : tree.Proper) {entries : List (String × FileTree)}
    (hopen : tree.find p = .ok (.folder entries)) :
    file ∈ FileTree.filesOnWalk enter keep p (.folder entries) ↔ r.Holds tree p file := by
  have hproper := htree.of_find hopen
  generalize hwalked : FileTree.folder entries = walked at hproper
  induction hproper generalizing p entries with
  | file content => cases hwalked
  | folder _ hnames _ ih =>
      obtain rfl := FileTree.folder.inj hwalked
      obtain ⟨pieces, hpieces, -⟩ := bind_eq_ok.mp (FileTree.find_eq_ok_iff.mp hopen).1
      have hp := (FileTree.piecesOf_eq_ok hpieces).1
      rw [FileTree.mem_filesOnWalk_folder hpieces, holds_iff hopen]
      refine exists_congr fun e => and_congr_right fun hentry => ?_
      obtain ⟨name, sub⟩ := e
      cases sub with
      | file content =>
          have hadmits := hr.other (htree.hasFolder_join_file hopen hentry)
          rw [FileTree.filesOnWalk_file, hadmits]
          cases keep (p.join name) <;> simp [FileTree.isFolder]
      | folder below =>
          rcases htree.find_join hopen hentry with hfind | ⟨error, herror⟩
          · have hfolder := FileTree.hasFolder_iff.mpr ⟨below, hfind⟩
            have hadmits := hr.folder hfolder ((hnames _ hentry).fileName?_join hp)
            have hbelow := ih _ hentry hfind rfl
            simp [FileTree.isFolder, hadmits, hbelow]
          · have hnone : ¬ r.Holds tree (p.join name) file := by
              intro h
              obtain ⟨entries, hfind⟩ := h.find
              obtain ⟨pieces, hpieces, -⟩ := bind_eq_ok.mp (FileTree.find_eq_ok_iff.mp hfind).1
              rw [herror] at hpieces
              cases hpieces
            rw [FileTree.filesOnWalk_of_error herror]
            simp [FileTree.isFolder, hnone]

end PathRules

namespace ScanConfig

/-- The walk of a suite's scan through a folder comes to exactly the files that the folder holds by
the suite's rules for sets of paths, to each once and in the order of paths. -/
theorem files_visits_forSuite (suite : SuiteConfig) (root : Path) {tree : FileTree} {path : Path}
    (htree : tree.Proper) (hfolder : tree.hasFolder path = true) :
    let files := ((forSuite root suite).visits tree path).filterMap FileTree.Visit.file?
    let rules := PathRules.forSuite suite suite.commentRegistry.extensions
    (∀ file, file ∈ files ↔ rules.Holds tree path file) ∧ files.Nodup ∧
      files.Pairwise fun p q => p.less q = true := by
  intro files rules
  obtain ⟨entries, hopen⟩ := FileTree.hasFolder_iff.mp hfolder
  have hfiles : files = FileTree.filesOnWalk (fun name => !suite.ignoredNames.contains name)
      suite.commentRegistry.supports path (.folder entries) := by
    simp only [files, visits, hopen]
    rfl
  have hpairwise : files.Pairwise fun p q => p.less q = true := by
    rw [hfiles]
    exact FileTree.pairwise_filesOnWalk (htree.of_find hopen) (FileTree.find_eq_ok hopen).2.1
  refine ⟨fun file => ?_, hpairwise.imp fun hless heq => ?_, hpairwise⟩
  · rw [hfiles]
    exact (PathRules.agrees_forSuite suite).mem_filesOnWalk_iff htree hopen
  · exact lt_irrefl _ (Path.less_iff.mp (heq ▸ hless))

/-- A suite `s` in whose folder names stand in another order as texts than as parts of paths. -/
def mixedSuite : FileTree :=
  .folder [("s", .folder [
    (".git", .folder [("C.java", .file (.text ""))]),
    ("a", .folder [("B.java", .file (.text "")), ("B.txt", .file (.text ""))]),
    ("a-b", .folder [("A.java", .file (.text ""))]),
    ("a.java", .file (.text ""))])]

theorem files_visits_mixedSuite :
    let files := ((forSuite ⟨"/s"⟩ default).visits mixedSuite ⟨"/s/"⟩).filterMap
      FileTree.Visit.file?
    let rules := PathRules.forSuite default (default : SuiteConfig).commentRegistry.extensions
    mixedSuite.Proper ∧ mixedSuite.hasFolder ⟨"/s/"⟩ = true ∧
      files = [⟨"/s/a/B.java"⟩, ⟨"/s/a-b/A.java"⟩, ⟨"/s/a.java"⟩] ∧
      (∀ file, file ∈ files ↔ rules.Holds mixedSuite ⟨"/s/"⟩ file) ∧ files.Nodup ∧
      files.Pairwise fun p q => p.less q = true := by
  have hproper : mixedSuite.Proper := FileTree.proper_of_isProper (by decide)
  have hfolder : mixedSuite.hasFolder ⟨"/s/"⟩ = true := by decide
  exact ⟨hproper, hfolder, by decide +kernel,
    files_visits_forSuite default ⟨"/s"⟩ hproper hfolder⟩

end ScanConfig

end TestSelection
