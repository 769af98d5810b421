import Mathlib.Data.List.TakeWhile
import TestSelection.Filter.ExcludeList
import TestSelection.Proofs.Cuts
import TestSelection.Proofs.Except
import TestSelection.Proofs.Table

/-!
Exclude lists and the lines they come from. A list keeps its entries by file, and the file of an
entry is what stands before the first number sign of its URL. Merging takes the entries of another
list file by file, but those of one file stay in their order, and no more is needed: an entry that
names a test is kept under the file of the test. That is so unless the path of the file has a number
sign of its own. For such a test nothing is ever found, whatever the lines say.
-/

namespace TestSelection

namespace Table

variable {α : Type}

/-- The values of one name among those of all entries. -/
theorem flatMap_entries (t : Table (List α)) (name : String) :
    (t.entries.flatMap fun e => if e.1 = name then e.2 else []) = (t.get? name).getD [] := by
  obtain ⟨entries, hordered⟩ := t
  show entries.flatMap _ = (find? name entries).getD []
  have hnodup := hordered.nodup
  clear hordered
  induction entries with
  | nil => rfl
  | cons head rest ih =>
      obtain ⟨n, values⟩ := head
      obtain ⟨hn, hrest⟩ := List.nodup_cons.mp hnodup
      rw [List.flatMap_cons, ih hrest]
      by_cases h : n = name
      · subst h
        simp [find?, find?_eq_none_iff.mpr hn]
      · simp [find?, h]

end Table

namespace ExcludeEntry

variable {e : ExcludeEntry} {test : Description}

theorem not_mem_file (e : ExcludeEntry) : '#' ∉ e.file.toList := by
  intro hmem
  rw [file, String.toList_ofList] at hmem
  have hne := List.mem_takeWhile_imp hmem
  simp at hne

/-- The file of an entry is the part of its URL in front of the first number sign. -/
theorem file_eq_of_url {path rest : List Char} (hpath : '#' ∉ path)
    (hrest : ∀ c ∈ rest.head?, c = '#') (hurl : e.url.toList = path ++ rest) :
    e.file = String.ofList path := by
  rw [file, hurl]
  cases rest with
  | nil => rw [List.append_nil, Chars.takeWhile_of_notMem hpath]
  | cons c rest =>
      obtain rfl : c = '#' := hrest c rfl
      rw [Chars.takeWhile_append_of_notMem hpath]

/-- An entry that names a test is kept under the test's file. -/
theorem file_eq_of_covers (hurl : test.url = Description.urlOf test.relativePath test.id)
    (hpath : Text.has '#' test.relativePath = false) (h : e.covers test = true) :
    e.file = test.relativePath := by
  have hplain : '#' ∉ test.relativePath.toList := by
    simpa [Text.has] using hpath
  have hbare (hsame : e.url = test.relativePath) : e.file = test.relativePath := by
    have hsplit : e.url.toList = test.relativePath.toList ++ [] := by rw [hsame, List.append_nil]
    rw [file_eq_of_url hplain (by simp) hsplit, String.ofList_toList]
  rw [covers] at h
  split at h
  · have hsame : e.url = test.url := by simpa using h
    rw [hurl] at hsame
    cases hid : test.id with
    | none => exact hbare (by rw [hsame, hid]; rfl)
    | some id =>
        have hsplit : e.url.toList = test.relativePath.toList ++ '#' :: id.toList := by
          rw [hsame, hid]
          simp [Description.urlOf]
        rw [file_eq_of_url hplain (by simp) hsplit, String.ofList_toList]
  · exact hbare (by simpa using h)

end ExcludeEntry

namespace ExcludeList

variable {l other : ExcludeList} {entries others : List ExcludeEntry}

/-- The list has the given entries, those of one file in the given order. -/
def Keeps (l : ExcludeList) (entries : List ExcludeEntry) : Prop :=
  ∀ file, (l.byFile.get? file).getD [] = entries.filter (·.file == file)

theorem keeps_empty : empty.Keeps [] := fun _ => rfl

theorem Keeps.insert (h : l.Keeps entries) (e : ExcludeEntry) :
    (l.insert e).Keeps (entries ++ [e]) := by
  intro file
  rw [ExcludeList.insert, Table.get?_insert, List.filter_append, ← h file]
  by_cases hfile : e.file = file
  · subst hfile
    simp
  · simp [hfile]

theorem Keeps.foldl_insert (h : l.Keeps entries) (added : List ExcludeEntry) :
    (added.foldl ExcludeList.insert l).Keeps (entries ++ added) := by
  induction added generalizing l entries with
  | nil => simpa using h
  | cons e rest ih =>
      rw [List.foldl_cons, List.append_cons]
      exact ih (h.insert e)

/-- File by file a list has the entries that it was made of. -/
theorem Keeps.filter_toList (h : l.Keeps entries) (file : String) :
    l.toList.filter (·.file == file) = entries.filter (·.file == file) := by
  have hkept : ∀ kept ∈ l.byFile.entries,
      kept.2.filter (·.file == file) = if kept.1 = file then kept.2 else [] := by
    rintro ⟨name, kept⟩ hmem
    have hget : l.byFile.get? name = some kept := Table.mem_entries_iff.mp hmem
    have hname : kept = entries.filter (·.file == name) := by
      rw [← h name, hget, Option.getD_some]
    rw [hname, List.filter_filter]
    by_cases hfile : name = file
    · subst hfile
      simp
    · rw [if_neg hfile, List.filter_eq_nil_iff]
      intro e _ hboth
      simp only [Bool.and_eq_true, beq_iff_eq] at hboth
      exact hfile (hboth.2.symm.trans hboth.1)
  calc l.toList.filter (·.file == file)
      = l.byFile.entries.flatMap fun kept => kept.2.filter (·.file == file) := by
        rw [toList, List.filter_flatMap]
    _ = l.byFile.entries.flatMap fun kept => if kept.1 = file then kept.2 else [] :=
        List.flatMap_congr hkept
    _ = (l.byFile.get? file).getD [] := Table.flatMap_entries l.byFile file
    _ = entries.filter (·.file == file) := h file

theorem Keeps.merge (h : l.Keeps entries) (h' : other.Keeps others) :
    (l.merge other).Keeps (entries ++ others) := by
  intro file
  have hfold := h.foldl_insert other.toList file
  rw [List.filter_append, h'.filter_toList, ← List.filter_append] at hfold
  exact hfold

/-- Texts whose lines can all be read are merged to a list that keeps what the lines say. -/
theorem exists_keeps_foldlM {texts : List (Path × String)} {lists : List (List ExcludeEntry)}
    (hlists : texts.mapM (fun p => entriesOf p.1 p.2) = .ok lists) (h : l.Keeps entries) :
    ∃ merged, texts.foldlM (fun l (path, text) => do return l.merge (← parse path text)) l
        = .ok merged ∧ merged.Keeps (entries ++ lists.flatten) := by
  induction texts generalizing l entries lists with
  | nil =>
      obtain rfl := Except.ok.inj hlists
      exact ⟨l, rfl, by simpa using h⟩
  | cons head rest ih =>
      obtain ⟨path, text⟩ := head
      rw [List.mapM_cons, bind_eq_ok] at hlists
      obtain ⟨first, hfirst, hlists⟩ := hlists
      obtain ⟨others, hothers, hpure⟩ := bind_eq_ok.mp hlists
      obtain rfl := Except.ok.inj hpure
      have hparse : (do return l.merge (← parse path text))
          = (.ok (l.merge (first.foldl ExcludeList.insert empty)) : Except ListError _) := by
        rw [parse, hfirst]
        rfl
      have hfirstKeeps : (first.foldl ExcludeList.insert empty).Keeps first := by
        simpa using keeps_empty.foldl_insert first
      obtain ⟨merged, hmerged, hkeeps⟩ := ih hothers (h.merge hfirstKeeps)
      refine ⟨merged, ?_, ?_⟩
      · rw [List.foldlM_cons]
        show (do return l.merge (← parse path text)) >>= _ = _
        rw [hparse]
        exact hmerged
      · simpa [List.append_assoc] using hkeeps

theorem Keeps.excludes? (h : l.Keeps entries) (test : Description) (platform : Platform) :
    l.excludes? test platform = entries.find? fun e =>
      e.file == test.relativePath && (e.covers test && e.holdsOn platform) := by
  rw [ExcludeList.excludes?, h test.relativePath, List.find?_filter]
  simp only [Bool.decide_and, Bool.decide_eq_true]

/-- Of all lines the first one counts that names the test or its file and holds on the platform,
unless the path of the file has a number sign: then no line counts. -/
theorem excludes?_ofTexts {texts : List (Path × String)} {lists : List (List ExcludeEntry)}
    (hlists : texts.mapM (fun p => entriesOf p.1 p.2) = .ok lists) (platform : Platform)
    {test : Description} (hurl : test.url = Description.urlOf test.relativePath test.id) :
    ∃ l, ofTexts texts = .ok l ∧ l.excludes? test platform =
      if Text.has '#' test.relativePath then none
      else lists.flatten.find? fun e => e.covers test && e.holdsOn platform := by
  obtain ⟨l, hl, hkeeps⟩ := exists_keeps_foldlM hlists keeps_empty
  refine ⟨l, hl, ?_⟩
  rw [hkeeps.excludes?, List.nil_append]
  split
  · rename_i hhash
    rw [List.find?_eq_none]
    intro e _ hfound
    obtain ⟨hfile, -⟩ := Bool.and_eq_true_iff.mp hfound
    have hmem : '#' ∈ test.relativePath.toList := by simpa [Text.has] using hhash
    rw [← beq_iff_eq.mp hfile] at hmem
    exact e.not_mem_file hmem
  · rename_i hhash
    congr 1
    funext e
    cases hcovers : e.covers test with
    | false => simp
    | true =>
        have hfile := ExcludeEntry.file_eq_of_covers hurl (Bool.not_eq_true _ ▸ hhash) hcovers
        simp [hfile]

/-- A line for the test itself, which does not hold on the platform, then one for its whole file,
and a second list with the test again. -/
theorem excludes?_ofTexts_wholeFile :
    let texts : List (Path × String) :=
      [(⟨"one.txt"⟩, "lib/A.java#id1 1 windows-all\nlib/B.java 2 generic-all\n" ++
        "lib/A.java 3 linux-x64"), (⟨"two.txt"⟩, "# again\nlib/A.java#id1 4 generic-all")]
    let lists : List (List ExcludeEntry) :=
      [[⟨"lib/A.java#id1", ["1"], ["windows-all"], ""⟩,
        ⟨"lib/B.java", ["2"], ["generic-all"], ""⟩, ⟨"lib/A.java", ["3"], ["linux-x64"], ""⟩],
        [⟨"lib/A.java#id1", ["4"], ["generic-all"], ""⟩]]
    let test := Description.new ⟨"/suite/lib/A.java"⟩ "lib/A.java" 1 (some "id1")
    texts.mapM (fun p => entriesOf p.1 p.2) = .ok lists ∧
      test.url = Description.urlOf test.relativePath test.id ∧
      ∃ l, ofTexts texts = .ok l ∧ l.excludes? test ⟨"linux", "x64"⟩
        = some ⟨"lib/A.java", ["3"], ["linux-x64"], ""⟩ := by
  intro texts lists test
  have hlists : texts.mapM (fun p => entriesOf p.1 p.2) = .ok lists := by decide +kernel
  have hurl : test.url = Description.urlOf test.relativePath test.id := rfl
  obtain ⟨l, hl, hfound⟩ := excludes?_ofTexts hlists ⟨"linux", "x64"⟩ hurl
  refine ⟨hlists, hurl, l, hl, hfound.trans ?_⟩
  decide +kernel

/-- The line names the test and holds on the platform, but the list looks for it under the part of
the path in front of the number sign. -/
theorem excludes?_numberSign :
    let test := Description.new ⟨"/suite/a#b.java"⟩ "a#b.java" 1 none
    let e : ExcludeEntry := ⟨"a#b.java", ["1234567"], ["generic-all"], ""⟩
    ofTexts [(⟨"list0.txt"⟩, "a#b.java 1234567 generic-all\n")] = .ok (empty.insert e) ∧
      e.covers test = true ∧ e.holdsOn ⟨"linux", "x64"⟩ = true ∧
      (empty.insert e).excludes? test ⟨"linux", "x64"⟩ = none := by
  decide +kernel

end ExcludeList

end TestSelection
