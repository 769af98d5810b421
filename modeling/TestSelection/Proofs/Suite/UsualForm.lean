import TestSelection.Proofs.Suite.TableInForce

/-!
The usual form of a directory that is in its usual form already. Blanks are trimmed off the text as
it is given, before separators and points that stand alone are dropped, so that what is dropped can
leave a blank at an end of the usual form. A second pass trims such a blank off, and the directory
then goes by another name. In all other cases a second pass changes nothing.
-/

namespace TestSelection.SuiteConfig

variable {dir : String} {s : List Char} {c : Char}

/-- A slash or a backslash. -/
def isSeparator (c : Char) : Bool := c == '/' || c == '\\'

/-- Whether a blank stands behind nothing but separators and points that stand alone. -/
def opensWithBlank : List Char → Bool
  | '.' :: c :: s => isSeparator c && opensWithBlank s
  | c :: s => Chars.isBlank c || (isSeparator c && opensWithBlank s)
  | [] => false

/-- Whether a blank comes to stand at an end of a directory when what stands in front of it or
behind it is dropped. -/
def baresBlank (dir : String) : Bool :=
  opensWithBlank (Text.trim dir).toList || opensWithBlank (Text.trim dir).toList.reverse

/-! ### The pieces that are kept -/

/-- The pieces between separators that are the components of a directory. -/
def keptPieces (s : List Char) : List (List Char) :=
  (Chars.splitBy isSeparator s).filter fun piece => !(piece == [] || piece == ['.'])

theorem dirComponents_eq_keptPieces (dir : String) :
    dirComponents dir = keptPieces (Text.trim dir).toList := by
  rw [dirComponents, Text.swap, String.toList_ofList, Chars.splitAt_map_replace_eq_splitBy]
  rfl

theorem keptPieces_reverse (s : List Char) :
    keptPieces s.reverse = ((keptPieces s).map List.reverse).reverse := by
  have hkept (piece : List Char) :
      (!(piece.reverse == [] || piece.reverse == ['.'])) = !(piece == [] || piece == ['.']) := by
    rw [Bool.eq_iff_iff]
    simp [List.reverse_eq_iff]
  rw [keptPieces, Chars.splitBy_reverse, List.filter_reverse, List.filter_map, keptPieces]
  exact congrArg (fun keep => (List.map List.reverse (List.filter keep _)).reverse) (funext hkept)

theorem keptPieces_separator_cons (hc : isSeparator c = true) (s : List Char) :
    keptPieces (c :: s) = keptPieces s := by
  rw [keptPieces, Chars.splitBy, if_pos hc]
  rfl

theorem keptPieces_point_cons (hc : isSeparator c = true) (s : List Char) :
    keptPieces ('.' :: c :: s) = keptPieces s := by
  have hcut : Chars.splitBy isSeparator ('.' :: c :: s) = ['.'] :: Chars.splitBy isSeparator s :=
    Chars.splitBy_append hc ['.'] s
  rw [keptPieces, hcut]
  rfl

/-- A sign that is no separator opens the first piece, which is kept unless the sign is a point that
stands alone. -/
theorem head?_keptPieces_cons (hc : isSeparator c = false)
    (hpoint : c = '.' → ∃ d rest, s = d :: rest ∧ isSeparator d = false) :
    (keptPieces (c :: s)).head?.bind List.head? = some c := by
  obtain ⟨part, parts, hparts, hcut⟩ := Chars.exists_splitBy_cons hc s
  have hkept : c :: part ≠ ['.'] := by
    intro heq
    obtain ⟨rfl, rfl⟩ := List.cons.inj heq
    obtain ⟨d, rest, rfl, hd⟩ := hpoint rfl
    obtain ⟨next, _, _, hnext⟩ := Chars.exists_splitBy_cons hd rest
    exact List.cons_ne_nil d next (List.cons.inj (hparts.symm.trans hnext)).1.symm
  rw [keptPieces, hcut, List.filter_cons_of_pos (by rw [beq_false_of_ne hkept]; rfl)]
  rfl

theorem any_isBlank_head?_keptPieces (s : List Char) :
    ((keptPieces s).head?.bind List.head?).any Chars.isBlank = opensWithBlank s := by
  fun_induction opensWithBlank s with
  | case1 c s ih =>
      cases hc : isSeparator c with
      | true => rw [keptPieces_point_cons hc, ih, Bool.true_and]
      | false =>
          rw [head?_keptPieces_cons rfl fun _ => ⟨c, s, rfl, hc⟩]
          rfl
  | case2 c s h ih =>
      cases hc : isSeparator c with
      | true =>
          have hblank : Chars.isBlank c = false := by
            rcases Bool.or_eq_true_iff.mp hc with heq | heq <;> rw [beq_iff_eq.mp heq] <;> rfl
          rw [keptPieces_separator_cons hc, ih, hblank, Bool.true_and, Bool.false_or]
      | false =>
          rw [Bool.false_and, Bool.or_false]
          by_cases hpoint : c = '.'
          · obtain rfl : s = [] := by
              by_contra hne
              obtain ⟨d, rest, hs⟩ := List.exists_cons_of_ne_nil hne
              exact h d rest hpoint hs
            rw [hpoint]
            rfl
          · rw [head?_keptPieces_cons hc fun heq => absurd heq hpoint]
            rfl
  | case3 => rfl

theorem any_isBlank_getLast?_keptPieces (s : List Char) :
    ((keptPieces s).getLast?.bind List.getLast?).any Chars.isBlank = opensWithBlank s.reverse := by
  rw [← any_isBlank_head?_keptPieces, keptPieces_reverse, List.head?_reverse, List.getLast?_map]
  cases (keptPieces s).getLast? with
  | none => rfl
  | some last => rw [Option.map_some, Option.bind_some, Option.bind_some, List.head?_reverse]

/-! ### The second pass -/

theorem trim_normalizeDir_iff :
    Text.trim (normalizeDir dir) = normalizeDir dir ↔ baresBlank dir = false := by
  have hne : ∀ name ∈ dirComponents dir, name ≠ [] :=
    fun name hname => (isComponent_of_mem_dirComponents hname).ne_nil
  rw [Text.trim, normalizeDir, String.toList_ofList, String.ofList_inj, Chars.trim_eq_self_iff,
    Path.joinPieces, Chars.head?_intercalate hne, Chars.getLast?_intercalate hne,
    dirComponents_eq_keptPieces, any_isBlank_head?_keptPieces, any_isBlank_getLast?_keptPieces,
    baresBlank, Bool.or_eq_false_iff]

theorem normalizeDir_normalizeDir_iff :
    normalizeDir (normalizeDir dir) = normalizeDir dir ↔ baresBlank dir = false := by
  rw [← trim_normalizeDir_iff]
  refine ⟨fun h => ?_, normalizeDir_normalizeDir⟩
  -- What is trimmed off makes the text shorter, and no later step makes it longer again.
  by_contra htrim
  have hlt := Text.length_trim_lt htrim
  have hle := length_normalizeDir_le (normalizeDir dir)
  rw [h] at hle
  omega

/-- The properties of a directory carry what its usual form is after a second pass. -/
theorem dir_propertiesFor_eq (c : SuiteConfig) (dir : String) :
    (c.propertiesFor dir).dir = normalizeDir (normalizeDir dir) := by
  by_cases h : normalizeDir dir = ""
  · rw [propertiesFor, normalizeDir_eq_empty_iff.mp h, h]
    exact DirectoryProperties.dir_root c
  · obtain ⟨parent, hproperties⟩ := exists_propertiesFor_eq_child (c := c) h
    rw [hproperties, DirectoryProperties.dir_child]

theorem forall_tableFor?_normalizeDir_iff :
    (∀ c : SuiteConfig, c.tableFor? (normalizeDir dir) = c.tableFor? dir) ↔
      normalizeDir (normalizeDir dir) = normalizeDir dir := by
  constructor
  · intro h
    let c : SuiteConfig :=
      { default with directories := Table.ofList [(dir, DirectoryTable.empty)] }
    have htable (d : String) : c.tableFor? d
        = if normalizeDir dir = normalizeDir d then some DirectoryTable.empty else none := by
      have hentries : c.directories.entries = [(dir, DirectoryTable.empty)] := rfl
      rw [tableFor?, hentries]
      split_ifs with hsame <;> simp [hsame]
    have hsame := h c
    rw [htable, htable, if_pos rfl] at hsame
    by_contra hne
    rw [if_neg (Ne.symm hne)] at hsame
    exact Option.some_ne_none _ hsame.symm
  · intro h c
    rw [tableFor?, tableFor?, h]

/-- A second pass changes nothing exactly if no blank comes to stand at an end. Then and only then
the properties of a directory carry the name by which it is looked up, and whatever its table is, it
is found by this name. -/
theorem normalizeDir_twice_iff (dir : String) :
    (normalizeDir (normalizeDir dir) = normalizeDir dir ↔ baresBlank dir = false) ∧
      (∀ c : SuiteConfig,
        (c.propertiesFor dir).dir = normalizeDir dir ↔ baresBlank dir = false) ∧
      ((∀ c : SuiteConfig, c.tableFor? (normalizeDir dir) = c.tableFor? dir) ↔
        baresBlank dir = false) := by
  refine ⟨normalizeDir_normalizeDir_iff, fun c => ?_, ?_⟩
  · rw [dir_propertiesFor_eq, normalizeDir_normalizeDir_iff]
  · rw [forall_tableFor?_normalizeDir_iff, normalizeDir_normalizeDir_iff]

/-- Behind the point and the slash that are dropped stands a blank. The table of the directory is a
valid one, but does not count for it. -/
theorem normalizeDir_twice_ne :
    let c : SuiteConfig := { default with
      directories := Table.ofList [("./ a", ⟨none, some true, false, false, none⟩)] }
    normalizeDir (normalizeDir "./ a") ≠ normalizeDir "./ a" ∧
      c.check = .ok () ∧ (c.tableFor? "./ a").map (·.enablePreview) = some (some true) ∧
      (c.propertiesFor "./ a").enablePreview = false ∧ (c.propertiesFor "./ a").dir = "a" ∧
      normalizeDir "./ a" = " a" := by
  decide +kernel

end TestSelection.SuiteConfig
