import TestSelection.Proofs.Cuts
import TestSelection.Suite.Directory

/-!
Directories by their names. A directory below the suite root is come to by a list of names. If they
are plain, which is to say that nothing in them is taken away or read as a cut, then the path that
they are joined to is in its usual form already, and its components are the names. Any usual form is
joined from components, which need not be plain: they may have blanks at their ends. It is in its
usual form itself unless such a blank comes to stand at an end of the path.
-/

namespace TestSelection

/-- What stands between the slashes of a usual form. -/
structure IsComponent (name : List Char) : Prop where
  ne_nil : name ≠ []
  ne_here : name ≠ ['.']
  noSlash : '/' ∉ name
  noBackslash : '\\' ∉ name

/-- A name of a directory that stays as it is in the usual form of a path. -/
structure IsPlainName (name : List Char) : Prop where
  ne_nil : name ≠ []
  ne_here : name ≠ ['.']
  noSlash : '/' ∉ name
  noBackslash : '\\' ∉ name
  trim_eq : Chars.trim name = name

theorem isPlainName_iff {name : List Char} :
    IsPlainName name ↔ name ≠ [] ∧ name ≠ ['.'] ∧ '/' ∉ name ∧ '\\' ∉ name ∧
      Chars.trim name = name :=
  ⟨fun h => ⟨h.ne_nil, h.ne_here, h.noSlash, h.noBackslash, h.trim_eq⟩,
    fun ⟨hnil, hhere, hslash, hbackslash, htrim⟩ => ⟨hnil, hhere, hslash, hbackslash, htrim⟩⟩

theorem IsPlainName.isComponent {name : List Char} (h : IsPlainName name) : IsComponent name :=
  ⟨h.ne_nil, h.ne_here, h.noSlash, h.noBackslash⟩

instance : DecidablePred IsPlainName := fun _ => decidable_of_iff' _ isPlainName_iff

namespace SuiteConfig

variable {name : List Char} {names : List (List Char)}

/-- The directory that names lead to from the suite root on. -/
def dirOf (names : List (List Char)) : String := String.ofList (Path.joinPieces names)

/-- A path of plain names starts and ends as its first and last name do. -/
theorem ends_joinPieces (h : ∀ name ∈ names, IsPlainName name) :
    (∀ c ∈ (Path.joinPieces names).head?, Chars.isBlank c = false) ∧
      ∀ c ∈ (Path.joinPieces names).getLast?, Chars.isBlank c = false := by
  have hne : ∀ name ∈ names, name ≠ [] := fun name hname => (h name hname).ne_nil
  rw [Path.joinPieces, Chars.head?_intercalate hne, Chars.getLast?_intercalate hne]
  constructor
  · intro c hc
    obtain ⟨first, hfirst, hc⟩ := Option.bind_eq_some_iff.mp hc
    exact (Chars.ends_of_trim (h first (List.mem_of_head? hfirst)).trim_eq).1 c hc
  · intro c hc
    obtain ⟨last, hlast, hc⟩ := Option.bind_eq_some_iff.mp hc
    exact (Chars.ends_of_trim (h last (List.mem_of_getLast? hlast)).trim_eq).2 c hc

theorem swap_dirOf (h : ∀ name ∈ names, IsComponent name) :
    Text.swap '\\' '/' (dirOf names) = dirOf names := by
  have hkeep : (Path.joinPieces names).map (fun c => if c == '\\' then '/' else c)
      = Path.joinPieces names := by
    refine (List.map_congr_left fun c hc => ?_).trans (List.map_id _)
    have hne : c ≠ '\\' := by
      rintro rfl
      rcases Chars.mem_intercalate hc with hslash | ⟨name, hname, hmem⟩
      · exact absurd hslash (by decide)
      · exact (h name hname).noBackslash hmem
    simp [hne]
  rw [Text.swap, dirOf, String.toList_ofList, hkeep]

theorem dirComponents_dirOf_of_trim (h : ∀ name ∈ names, IsComponent name)
    (htrim : Text.trim (dirOf names) = dirOf names) : dirComponents (dirOf names) = names := by
  rw [dirComponents, htrim, swap_dirOf h, dirOf, String.toList_ofList]
  cases names with
  | nil => rfl
  | cons first rest =>
      rw [Path.joinPieces, Chars.splitAt_intercalate (List.cons_ne_nil first rest)
        fun name hname => (h name hname).noSlash, List.filter_eq_self]
      intro name hname
      simp [(h name hname).ne_nil, (h name hname).ne_here]

theorem dirComponents_dirOf (h : ∀ name ∈ names, IsPlainName name) :
    dirComponents (dirOf names) = names := by
  obtain ⟨hstart, hend⟩ := ends_joinPieces h
  refine dirComponents_dirOf_of_trim (fun name hname => (h name hname).isComponent) ?_
  rw [Text.trim, dirOf, String.toList_ofList, Chars.trim_of_ends hstart hend]

/-- A directory of plain names is in its usual form. -/
theorem normalizeDir_dirOf (h : ∀ name ∈ names, IsPlainName name) :
    normalizeDir (dirOf names) = dirOf names := by
  rw [normalizeDir, dirComponents_dirOf h, dirOf]

/-! ### The usual form -/

variable {dir : String}

/-- The components come from the names between the slashes, cut at their backslashes. -/
theorem mem_dirComponents_iff :
    name ∈ dirComponents dir ↔ name ≠ [] ∧ name ≠ ['.'] ∧
      ∃ piece ∈ Chars.splitAt '/' (Text.trim dir).toList, name ∈ Chars.splitAt '\\' piece := by
  rw [dirComponents, Text.swap, String.toList_ofList, Chars.splitAt_map_replace, List.mem_filter,
    List.mem_flatMap, and_comm]
  simp [and_assoc]

theorem isComponent_of_mem_dirComponents (h : name ∈ dirComponents dir) : IsComponent name := by
  obtain ⟨hnil, hhere, piece, hpiece, hname⟩ := mem_dirComponents_iff.mp h
  refine ⟨hnil, hhere, fun hslash => ?_, fun hbackslash => ?_⟩
  · have hmem := (Chars.of_mem_splitBy hname hslash).2
    exact absurd (Chars.of_mem_splitBy hpiece hmem).1 (by decide)
  · exact absurd (Chars.of_mem_splitBy hname hbackslash).1 (by decide)

theorem dirComponents_normalizeDir (h : Text.trim (normalizeDir dir) = normalizeDir dir) :
    dirComponents (normalizeDir dir) = dirComponents dir :=
  dirComponents_dirOf_of_trim (fun _ hname => isComponent_of_mem_dirComponents hname) h

theorem normalizeDir_normalizeDir (h : Text.trim (normalizeDir dir) = normalizeDir dir) :
    normalizeDir (normalizeDir dir) = normalizeDir dir :=
  congrArg dirOf (dirComponents_normalizeDir h)

theorem normalizeDir_eq_empty_iff : normalizeDir dir = "" ↔ dirComponents dir = [] := by
  constructor
  · intro h
    rw [← dirComponents_normalizeDir (h ▸ rfl), h]
    rfl
  · intro h
    rw [normalizeDir, h]
    rfl

theorem length_normalizeDir_le (dir : String) :
    (normalizeDir dir).length ≤ (Text.trim dir).length := by
  rw [normalizeDir, String.length_ofList]
  calc (Path.joinPieces (dirComponents dir)).length
      ≤ (Path.joinPieces (Chars.splitAt '/' (Text.swap '\\' '/' (Text.trim dir)).toList)).length :=
        (Chars.length_intercalate_of_sublist List.filter_sublist).1
    _ = (Text.trim dir).length := by
        rw [Path.joinPieces, Chars.intercalate_splitAt, Text.swap, String.toList_ofList,
          List.length_map, String.length_toList]

end SuiteConfig

end TestSelection
