import TestSelection.Group.Wildcard
import TestSelection.Proofs.FileTree

/-!
What a wildcard stands for. A name has the form of a pattern if it is the pattern with some run of
characters in the place of each star. The parts between the stars are looked for from the left, and
each is taken where it occurs first; a later occurrence is never tried. Nothing is missed in this
way: what follows a later occurrence stands at the end of what follows the first one, so that the
run of the next star can be made longer by what lies in between. A path with a star in its last
part stands for the entries of its parent whose names have the form of that part.
-/

namespace TestSelection

namespace Wildcard

/-- The name is the pattern with a run of characters in the place of each star, and every other
character stands for itself. -/
inductive Fills : (pattern name : List Char) → Prop
  | nil : Fills [] []
  | star (run : List Char) {pattern name : List Char} (h : Fills pattern name) :
      Fills ('*' :: pattern) (run ++ name)
  | char {c : Char} {pattern name : List Char} (hc : c ≠ '*') (h : Fills pattern name) :
      Fills (c :: pattern) (c :: name)

/-- The text consists of the parts in turn, with a run of characters in front of each. -/
inductive InTurn : (parts : List (List Char)) → (s : List Char) → Prop
  | nil : InTurn [] []
  | cons (run part : List Char) {parts : List (List Char)} {s : List Char} (h : InTurn parts s) :
      InTurn (part :: parts) (run ++ (part ++ s))

variable {part first pattern name s rest : List Char} {parts : List (List Char)}

theorem inTurn_cons_iff :
    InTurn (part :: parts) s ↔ ∃ run rest, s = run ++ (part ++ rest) ∧ InTurn parts rest := by
  constructor
  · rintro (_ | ⟨run, _, h⟩)
    exact ⟨run, _, rfl, h⟩
  · rintro ⟨run, rest, rfl, h⟩
    exact .cons run part h

theorem inTurn_nil_iff : InTurn [] s ↔ s = [] := by
  constructor
  · rintro ⟨⟩
    rfl
  · rintro rfl
    exact .nil

/-- The first run takes up what is put in front. -/
theorem InTurn.of_isSuffix {t : List Char} (h : InTurn (part :: parts) s) (hsuffix : s <:+ t) :
    InTurn (part :: parts) t := by
  obtain ⟨more, rfl⟩ := hsuffix
  obtain ⟨run, rest, rfl, hrest⟩ := inTurn_cons_iff.mp h
  exact inTurn_cons_iff.mpr ⟨more ++ run, rest, (List.append_assoc _ _ _).symm, hrest⟩

/-! ### The first occurrence -/

theorem exists_of_afterFirst? (h : afterFirst? part s = some rest) :
    ∃ run, s = run ++ (part ++ rest) := by
  fun_induction afterFirst? part s with
  | case1 hpart =>
      obtain rfl := Option.some.inj h
      exact ⟨[], by rw [hpart]; rfl⟩
  | case2 => exact nomatch h
  | case3 c s rest' hafter =>
      obtain rfl := Option.some.inj h
      have heq : c :: s = part ++ rest' := Chars.after?_eq_some_iff.mp hafter
      exact ⟨[], heq⟩
  | case4 c s hnone ih =>
      obtain ⟨run, rfl⟩ := ih h
      exact ⟨c :: run, rfl⟩

/-- What follows any occurrence stands at the end of what follows the first one. -/
theorem exists_afterFirst? (run part rest : List Char) :
    ∃ rest', afterFirst? part (run ++ (part ++ rest)) = some rest' ∧ rest <:+ rest' := by
  obtain ⟨s, hs⟩ : ∃ s, s = run ++ (part ++ rest) := ⟨_, rfl⟩
  rw [← hs]
  fun_induction afterFirst? part s generalizing run with
  | case1 =>
      obtain ⟨-, hnil⟩ := List.append_eq_nil_iff.mp hs.symm
      exact ⟨[], rfl, (List.append_eq_nil_iff.mp hnil).2 ▸ List.suffix_rfl⟩
  | case2 hpart =>
      obtain ⟨-, hnil⟩ := List.append_eq_nil_iff.mp hs.symm
      exact absurd (List.append_eq_nil_iff.mp hnil).1 hpart
  | case3 c s first hafter =>
      refine ⟨first, rfl, ?_⟩
      have heq : part ++ first = run ++ (part ++ rest) :=
        (Chars.after?_eq_some_iff.mp hafter).symm.trans hs
      have hfirst : first <:+ part ++ first := List.suffix_append part first
      have hrest : rest <:+ part ++ first :=
        heq ▸ (List.suffix_append part rest).trans (List.suffix_append run _)
      refine List.suffix_of_suffix_length_le hrest hfirst ?_
      have hlength := congrArg List.length heq
      simp only [List.length_append] at hlength
      omega
  | case4 c s hnone ih =>
      cases run with
      | nil =>
          have heq : c :: s = part ++ rest := hs
          rw [Chars.after?_eq_some_iff.mpr heq] at hnone
          exact nomatch hnone
      | cons d run => exact ih run (List.cons.inj hs).2

/-- Taking each part where it occurs first finds whatever parts there are in turn. -/
theorem matchesParts_iff : matchesParts parts s = true ↔ InTurn parts s := by
  fun_induction matchesParts parts s with
  | case1 s => rw [List.isEmpty_iff, inTurn_nil_iff]
  | case2 last s =>
      rw [Option.isSome_iff_exists, inTurn_cons_iff]
      refine exists_congr fun run => ?_
      rw [Chars.before?_eq_some_iff]
      simp [inTurn_nil_iff]
  | case3 part parts s hparts rest hfirst ih =>
      obtain ⟨next, parts, rfl⟩ := List.exists_cons_of_ne_nil hparts
      obtain ⟨run, rfl⟩ := exists_of_afterFirst? hfirst
      rw [ih]
      constructor
      · exact fun h => .cons run part h
      · intro h
        obtain ⟨run', rest', heq, hrest'⟩ := inTurn_cons_iff.mp h
        obtain ⟨longest, hlongest, hsuffix⟩ := exists_afterFirst? run' part rest'
        rw [← heq, hfirst] at hlongest
        obtain rfl := Option.some.inj hlongest
        exact hrest'.of_isSuffix hsuffix
  | case4 part parts s hparts hnone =>
      refine iff_of_false Bool.false_ne_true fun h => ?_
      obtain ⟨run, rest, rfl, -⟩ := inTurn_cons_iff.mp h
      obtain ⟨rest', hfirst, -⟩ := exists_afterFirst? run part rest
      rw [hnone] at hfirst
      exact nomatch hfirst

/-! ### Patterns -/

theorem fills_star_iff :
    Fills ('*' :: pattern) name ↔ ∃ run rest, name = run ++ rest ∧ Fills pattern rest := by
  constructor
  · intro h
    cases h with
    | star run h => exact ⟨run, _, rfl, h⟩
    | char hc => exact absurd rfl hc
  · rintro ⟨run, rest, rfl, h⟩
    exact .star run h

theorem fills_char_iff {c : Char} (hc : c ≠ '*') :
    Fills (c :: pattern) name ↔ ∃ rest, name = c :: rest ∧ Fills pattern rest := by
  constructor
  · intro h
    cases h with
    | star => exact absurd rfl hc
    | char _ h => exact ⟨_, rfl, h⟩
  · rintro ⟨rest, rfl, h⟩
    exact .char hc h

/-- A name fills a pattern if it starts with the part in front of the first star and goes on with
the other parts in turn. -/
theorem fills_iff_of_splitAt (hsplit : Chars.splitAt '*' pattern = first :: parts) :
    Fills pattern name ↔ ∃ rest, name = first ++ rest ∧ InTurn parts rest := by
  induction pattern generalizing first parts name with
  | nil =>
      obtain ⟨rfl, rfl⟩ := List.cons.inj hsplit
      simp only [List.nil_append, exists_eq_left', inTurn_nil_iff]
      constructor
      · rintro ⟨⟩
        rfl
      · rintro rfl
        exact .nil
  | cons c pattern ih =>
      by_cases hc : c = '*'
      · subst hc
        rw [Chars.splitAt_cons_self] at hsplit
        obtain ⟨rfl, rfl⟩ := List.cons.inj hsplit
        obtain ⟨first, parts, hparts⟩ :=
          List.exists_cons_of_ne_nil (Chars.splitBy_ne_nil (p := (· == '*')) pattern)
        rw [fills_star_iff, Chars.splitAt, hparts]
        simp only [ih hparts, List.nil_append, exists_eq_left', inTurn_cons_iff]
        constructor
        · rintro ⟨run, _, rfl, rest, rfl, h⟩
          exact ⟨run, rest, rfl, h⟩
        · rintro ⟨run, rest, rfl, h⟩
          exact ⟨run, _, rfl, rest, rfl, h⟩
      · obtain ⟨part, parts', hparts, hcons⟩ := Chars.exists_splitAt_cons hc pattern
        obtain ⟨rfl, rfl⟩ := List.cons.inj (hsplit.symm.trans hcons)
        rw [fills_char_iff hc]
        simp only [ih hparts, List.cons_append]
        constructor
        · rintro ⟨_, rfl, rest, rfl, h⟩
          exact ⟨rest, rfl, h⟩
        · rintro ⟨rest, rfl, h⟩
          exact ⟨_, rfl, rest, rfl, h⟩

theorem fills_iff_of_notMem (hstar : '*' ∉ pattern) : Fills pattern name ↔ name = pattern := by
  rw [fills_iff_of_splitAt (Chars.splitAt_of_notMem hstar)]
  simp [inTurn_nil_iff]

/-- A star in front of a text stands for all names that end with it. -/
theorem fills_star_iff_isSuffix (hstar : '*' ∉ pattern) :
    Fills ('*' :: pattern) name ↔ pattern <:+ name := by
  simp only [fills_star_iff, fills_iff_of_notMem hstar, exists_eq_right]
  exact exists_congr fun run => eq_comm

theorem matchesPattern_iff_inTurn (hsplit : Chars.splitAt '*' pattern = first :: parts) :
    matchesPattern pattern name = true ↔ ∃ rest, name = first ++ rest ∧ InTurn parts rest := by
  rw [matchesPattern, hsplit]
  dsimp only
  cases hafter : Chars.after? first name with
  | none =>
      refine iff_of_false Bool.false_ne_true ?_
      rintro ⟨rest, hname, -⟩
      exact Option.some_ne_none _ ((Chars.after?_eq_some_iff.mpr hname).symm.trans hafter)
  | some rest =>
      obtain rfl := Chars.after?_eq_some_iff.mp hafter
      dsimp only
      simp only [matchesParts_iff, List.append_cancel_left_eq, exists_eq_left']

/-- A name has the form of a pattern exactly if it is the pattern with some run of characters in the
place of each star. -/
theorem matchesPattern_iff_fills (pattern name : List Char) :
    matchesPattern pattern name = true ↔ Fills pattern name := by
  obtain ⟨first, parts, hsplit⟩ :=
    List.exists_cons_of_ne_nil (Chars.splitBy_ne_nil (p := (· == '*')) pattern)
  rw [matchesPattern_iff_inTurn hsplit, fills_iff_of_splitAt hsplit]

/-- The parts of a pattern do not overlap in a name. -/
example : matchesPattern "a*a".toList "a".toList = false := by decide

end Wildcard

namespace Path

variable {tree : FileTree} {p q parent : Path} {pattern : String}

theorem hasWildcard_iff : p.hasWildcard = true ↔
    ∃ name, p.parts.getLast? = some (.name name) ∧ '*' ∈ name.toList := by
  rw [hasWildcard, fileName?]
  split
  · rename_i name hlast
    simp [hlast, Text.has]
  · rename_i hlast
    refine iff_of_false Bool.false_ne_true ?_
    rintro ⟨name, hname, -⟩
    exact hlast name hname

/-- A wildcard stands for the entries of its parent whose names fill its last part. -/
theorem mem_expandWildcard {entries : List (String × FileTree)} (htree : tree.Proper)
    (hparent : p.parent? = some parent) (hpattern : p.fileName? = some pattern)
    (hfolder : tree.find parent = .ok (.folder entries)) :
    q ∈ p.expandWildcard tree ↔
      ∃ e ∈ entries, Wildcard.Fills pattern.toList e.1.toList ∧ q = parent.join e.1 := by
  have hfileName : ∀ e ∈ entries, (parent.join e.1).fileName? = some e.1 := by
    cases htree.of_find hfolder with
    | folder _ hnames _ =>
        exact fun e he => (hnames e he).fileName?_join (FileTree.find_eq_ok hfolder).2.1
  obtain ⟨first, parts, hsplit⟩ :=
    List.exists_cons_of_ne_nil (Chars.splitBy_ne_nil (p := (· == '*')) pattern.toList)
  simp only [expandWildcard, hparent, hpattern, FileTree.children, hfolder, List.mem_filter,
    List.mem_map]
  constructor
  · rintro ⟨⟨e, he, rfl⟩, hmatches⟩
    rw [hfileName e he] at hmatches
    refine ⟨e, he, ?_, rfl⟩
    exact (Wildcard.fills_iff_of_splitAt hsplit).mpr
      ((Wildcard.matchesPattern_iff_inTurn hsplit).mp hmatches)
  · rintro ⟨e, he, hfills, rfl⟩
    refine ⟨⟨e, he, rfl⟩, ?_⟩
    rw [hfileName e he]
    exact (Wildcard.matchesPattern_iff_inTurn hsplit).mpr
      ((Wildcard.fills_iff_of_splitAt hsplit).mp hfills)

end Path

end TestSelection
