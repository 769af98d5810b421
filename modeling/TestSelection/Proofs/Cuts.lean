import TestSelection.Proofs.Lists
import TestSelection.Text

/-!
Laws of cuts and of trimming. Pieces in which the separator does not occur are got back from the
text that they are joined to, and a text is what its pieces are joined to. What follows a beginning,
or stands before an end, makes up the text with it. Trimming takes nothing away from a text that
neither starts nor ends with a blank.
-/

namespace TestSelection.Chars

variable {p : Char → Bool} {c separator : Char} {s t : List Char}

/-! ### All pieces -/

theorem splitBy_ne_nil (s : List Char) : splitBy p s ≠ [] := by
  cases s with
  | nil => exact List.cons_ne_nil _ _
  | cons c s =>
      rw [splitBy]
      split
      · exact List.cons_ne_nil _ _
      · split <;> exact List.cons_ne_nil _ _

theorem splitBy_append {c : Char} (hc : p c = true) (s t : List Char) :
    splitBy p (s ++ c :: t) = splitBy p s ++ splitBy p t := by
  induction s with
  | nil => simp [splitBy, hc]
  | cons x s ih =>
      rw [List.cons_append, splitBy, splitBy, ih]
      split
      · rfl
      · obtain ⟨part, parts, hparts⟩ := List.exists_cons_of_ne_nil (splitBy_ne_nil (p := p) s)
        rw [hparts]
        rfl

theorem splitBy_eq_singleton {s : List Char} (h : ∀ c ∈ s, p c = false) : splitBy p s = [s] := by
  induction s with
  | nil => rfl
  | cons c s ih =>
      obtain ⟨hc, hs⟩ := List.forall_mem_cons.mp h
      simp [splitBy, hc, ih hs]

/-- The pieces have nothing at which the text is cut, and nothing that is not in the text. -/
theorem of_mem_splitBy {piece : List Char} (h : piece ∈ splitBy p s) (hc : c ∈ piece) :
    p c = false ∧ c ∈ s := by
  induction s generalizing piece with
  | nil =>
      obtain rfl := List.mem_singleton.mp h
      exact nomatch hc
  | cons d s ih =>
      obtain ⟨part, parts, hparts⟩ := List.exists_cons_of_ne_nil (splitBy_ne_nil (p := p) s)
      have hrest {piece : List Char} (h : piece ∈ part :: parts) (hc : c ∈ piece) :
          p c = false ∧ c ∈ d :: s :=
        have hs := ih (hparts ▸ h) hc
        ⟨hs.1, List.mem_cons_of_mem d hs.2⟩
      rw [splitBy, hparts] at h
      split at h
      · rcases List.mem_cons.mp h with rfl | h
        · exact nomatch hc
        · exact hrest h hc
      · rename_i hd
        rcases List.mem_cons.mp h with rfl | h
        · rcases List.mem_cons.mp hc with rfl | hc
          · exact ⟨Bool.of_not_eq_true hd, List.mem_cons_self⟩
          · exact hrest List.mem_cons_self hc
        · exact hrest (List.mem_cons_of_mem part h) hc

theorem splitAt_of_notMem (h : separator ∉ s) : splitAt separator s = [s] :=
  splitBy_eq_singleton fun _ hc => beq_false_of_ne fun heq => h (heq ▸ hc)

theorem splitAt_cons_self (separator : Char) (s : List Char) :
    splitAt separator (separator :: s) = [] :: splitAt separator s :=
  if_pos (beq_self_eq_true separator)

/-- A character at which the text is not cut goes to the front of the first piece. -/
theorem exists_splitBy_cons (h : p c = false) (s : List Char) :
    ∃ part parts, splitBy p s = part :: parts ∧ splitBy p (c :: s) = (c :: part) :: parts := by
  obtain ⟨part, parts, hparts⟩ := List.exists_cons_of_ne_nil (splitBy_ne_nil (p := p) s)
  refine ⟨part, parts, hparts, ?_⟩
  rw [splitBy, if_neg (by simp [h]), hparts]

theorem exists_splitAt_cons (h : c ≠ separator) (s : List Char) :
    ∃ part parts, splitAt separator s = part :: parts ∧
      splitAt separator (c :: s) = (c :: part) :: parts :=
  exists_splitBy_cons (p := (· == separator)) (beq_false_of_ne h) s

theorem splitAt_append (separator : Char) (s t : List Char) :
    splitAt separator (s ++ separator :: t) = splitAt separator s ++ splitAt separator t :=
  @splitBy_append (· == separator) separator (beq_self_eq_true separator) s t

/-- Pieces without the separator are got back. -/
theorem splitAt_intercalate {pieces : List (List Char)} (hne : pieces ≠ [])
    (h : ∀ piece ∈ pieces, separator ∉ piece) :
    splitAt separator ([separator].intercalate pieces) = pieces := by
  induction pieces with
  | nil => exact absurd rfl hne
  | cons first rest ih =>
      obtain ⟨hfirst, hrest⟩ := List.forall_mem_cons.mp h
      cases rest with
      | nil => rw [List.intercalate_singleton, splitAt_of_notMem hfirst]
      | cons second rest =>
          rw [List.intercalate_cons_cons, List.append_assoc, List.singleton_append, splitAt_append,
            splitAt_of_notMem hfirst, ih (List.cons_ne_nil _ _) hrest]
          rfl

/-- A text is joined from its pieces. -/
theorem intercalate_splitAt (separator : Char) (s : List Char) :
    [separator].intercalate (splitAt separator s) = s := by
  unfold splitAt
  induction s with
  | nil => rfl
  | cons c s ih =>
      obtain ⟨part, parts, hparts⟩ :=
        List.exists_cons_of_ne_nil (splitBy_ne_nil (p := (· == separator)) s)
      rw [hparts] at ih
      rw [splitBy, hparts]
      split
      · rename_i hc
        rw [List.intercalate_cons_cons, ih, beq_iff_eq.mp hc]
        rfl
      · cases parts with
        | nil => simpa using ih
        | cons next parts =>
            rw [List.intercalate_cons_cons] at ih ⊢
            simpa using ih

theorem mem_intercalate {pieces : List (List Char)} (h : c ∈ [separator].intercalate pieces) :
    c = separator ∨ ∃ piece ∈ pieces, c ∈ piece := by
  induction pieces with
  | nil => exact nomatch h
  | cons first rest ih =>
      cases rest with
      | nil => exact Or.inr ⟨first, List.mem_cons_self, by simpa using h⟩
      | cons second rest =>
          rw [List.intercalate_cons_cons, List.append_assoc, List.mem_append, List.mem_append,
            List.mem_singleton] at h
          rcases h with hfirst | hseparator | hrest
          · exact Or.inr ⟨first, List.mem_cons_self, hfirst⟩
          · exact Or.inl hseparator
          · rcases ih hrest with hseparator | ⟨piece, hpiece, hc⟩
            · exact Or.inl hseparator
            · exact Or.inr ⟨piece, List.mem_cons_of_mem _ hpiece, hc⟩

/-- A character is the separator or stands in a piece. -/
theorem eq_or_exists_mem_splitAt (separator : Char) (hc : c ∈ s) :
    c = separator ∨ ∃ piece ∈ splitAt separator s, c ∈ piece := by
  refine mem_intercalate ?_
  rwa [intercalate_splitAt]

/-- Another separator in place of the one between pieces that do not have it. -/
theorem map_replace_intercalate {pieces : List (List Char)}
    (h : ∀ piece ∈ pieces, separator ∉ piece) (new : Char) :
    ([separator].intercalate pieces).map (fun c => if c == separator then new else c)
      = [new].intercalate pieces := by
  have hkeep : ∀ piece ∈ pieces,
      piece.map (fun c => if c == separator then new else c) = piece := by
    intro piece hpiece
    refine (List.map_congr_left fun c hc => if_neg ?_).trans (List.map_id piece)
    rintro hseparator
    exact h piece hpiece (beq_iff_eq.mp hseparator ▸ hc)
  induction pieces with
  | nil => rfl
  | cons first rest ih =>
      obtain ⟨hfirst, hrest⟩ := List.forall_mem_cons.mp hkeep
      have ih := ih (fun piece hpiece => h piece (List.mem_cons_of_mem _ hpiece)) hrest
      cases rest with
      | nil => rwa [List.intercalate_singleton, List.intercalate_singleton]
      | cons second rest =>
          rw [List.intercalate_cons_cons, List.intercalate_cons_cons, List.map_append,
            List.map_append, hfirst, ih]
          simp

/-- Where one separator is turned into another, the pieces between those of the other are cut on. -/
theorem splitAt_map_replace (old new : Char) (s : List Char) :
    splitAt new (s.map fun c => if c == old then new else c)
      = (splitAt new s).flatMap (splitAt old) := by
  induction s with
  | nil => rfl
  | cons c s ih =>
      by_cases hnew : c = new
      · subst hnew
        rw [List.map_cons, ite_self, splitAt_cons_self, splitAt_cons_self, ih]
        rfl
      obtain ⟨part, parts, hparts, hcons⟩ := exists_splitAt_cons hnew s
      rw [hparts, List.flatMap_cons] at ih
      rw [hcons, List.flatMap_cons]
      by_cases hold : c = old
      · subst hold
        rw [List.map_cons, if_pos (beq_self_eq_true c), splitAt_cons_self, splitAt_cons_self, ih]
        rfl
      · rw [List.map_cons, if_neg (by simpa using hold)]
        obtain ⟨first, rest, hfirst, hfront⟩ := exists_splitAt_cons hold part
        obtain ⟨first', rest', hfirst', hfront'⟩ :=
          exists_splitAt_cons hnew (s.map fun c => if c == old then new else c)
        rw [hfirst', hfirst, List.cons_append] at ih
        obtain ⟨rfl, rfl⟩ := List.cons.inj ih
        rw [hfront, hfront', List.cons_append]

/-- Where one separator is turned into another, the text is cut at both. -/
theorem splitAt_map_replace_eq_splitBy (old new : Char) (s : List Char) :
    splitAt new (s.map fun c => if c == old then new else c)
      = splitBy (fun c => c == new || c == old) s := by
  unfold splitAt
  induction s with
  | nil => rfl
  | cons c s ih =>
      have hcut : ((if c == old then new else c) == new) = (c == new || c == old) := by
        by_cases hold : c = old <;> simp [hold]
      rw [List.map_cons, splitBy, splitBy, hcut, ih]
      split
      · rfl
      · rename_i hc
        rw [if_neg fun hold => hc (by rw [hold, Bool.or_true])]

theorem intercalate_append_cons (separator : Char) (front piece : List Char)
    (pieces : List (List Char)) :
    [separator].intercalate ((front ++ piece) :: pieces)
      = front ++ [separator].intercalate (piece :: pieces) := by
  cases pieces with
  | nil => rw [List.intercalate_singleton, List.intercalate_singleton]
  | cons next pieces =>
      rw [List.intercalate_cons_cons, List.intercalate_cons_cons, List.append_assoc,
        List.append_assoc, List.append_assoc]

theorem intercalate_append {front back : List (List Char)} (hfront : front ≠ [])
    (hback : back ≠ []) :
    [separator].intercalate (front ++ back)
      = [separator].intercalate front ++ separator :: [separator].intercalate back := by
  induction front with
  | nil => exact absurd rfl hfront
  | cons first rest ih =>
      cases rest with
      | nil =>
          rw [List.singleton_append, List.intercalate_cons_of_ne_nil hback,
            List.intercalate_singleton, List.append_assoc, List.singleton_append]
      | cons second rest =>
          rw [List.cons_append, List.cons_append, List.intercalate_cons_cons, ← List.cons_append,
            ih (List.cons_ne_nil _ _), List.intercalate_cons_cons, List.append_assoc _ _ (_ :: _)]

theorem intercalate_append_singleton {pieces : List (List Char)} (h : pieces ≠ [])
    (piece : List Char) :
    [separator].intercalate (pieces ++ [piece])
      = [separator].intercalate pieces ++ separator :: piece := by
  rw [intercalate_append h (List.cons_ne_nil _ _), List.intercalate_singleton]

theorem head?_intercalate {pieces : List (List Char)} (h : ∀ piece ∈ pieces, piece ≠ []) :
    ([separator].intercalate pieces).head? = pieces.head?.bind List.head? := by
  cases pieces with
  | nil => rfl
  | cons first rest =>
      obtain ⟨c, first, rfl⟩ := List.exists_cons_of_ne_nil (h first List.mem_cons_self)
      have hfront := intercalate_append_cons separator [c] first rest
      rw [List.singleton_append] at hfront
      rw [hfront]
      rfl

theorem getLast?_intercalate {pieces : List (List Char)} (h : ∀ piece ∈ pieces, piece ≠ []) :
    ([separator].intercalate pieces).getLast? = pieces.getLast?.bind List.getLast? := by
  rcases List.eq_nil_or_concat pieces with rfl | ⟨front, last, rfl⟩
  · rfl
  rw [List.concat_eq_append] at h ⊢
  by_cases hfront : front = []
  · rw [hfront, List.nil_append, List.intercalate_singleton]
    rfl
  · obtain ⟨c, hc⟩ := Option.ne_none_iff_exists'.mp
      (mt List.getLast?_eq_none_iff.mp (h last (List.mem_append_right _ List.mem_cons_self)))
    rw [intercalate_append_singleton hfront, List.getLast?_append, List.getLast?_cons, hc,
      List.getLast?_concat, Option.bind_some, hc]
    rfl

theorem intercalate_eq_nil_iff (separator : Char) {pieces : List (List Char)}
    (h : ∀ piece ∈ pieces, piece ≠ []) :
    [separator].intercalate pieces = [] ↔ pieces = [] := by
  rw [← List.head?_eq_none_iff, head?_intercalate h]
  cases pieces with
  | nil => exact iff_of_true rfl rfl
  | cons first rest =>
      obtain ⟨c, first, rfl⟩ := List.exists_cons_of_ne_nil (h first List.mem_cons_self)
      exact iff_of_false (Option.some_ne_none c) (List.cons_ne_nil _ _)

theorem length_intercalate (pieces : List (List Char)) :
    ([separator].intercalate pieces).length = pieces.flatten.length + (pieces.length - 1) := by
  induction pieces with
  | nil => rfl
  | cons first rest ih =>
      cases rest with
      | nil => simp
      | cons second rest =>
          rw [List.intercalate_cons_cons, List.length_append, List.length_append, ih]
          simp only [List.flatten_cons, List.length_append, List.length_cons, List.length_nil]
          omega

/-- A text of fewer pieces is no longer, and shorter if any are left. -/
theorem length_intercalate_of_sublist {pieces all : List (List Char)} (h : pieces.Sublist all) :
    ([separator].intercalate pieces).length ≤ ([separator].intercalate all).length ∧
      (0 < pieces.length → pieces.length < all.length →
        ([separator].intercalate pieces).length < ([separator].intercalate all).length) := by
  have hflatten : pieces.flatten.length ≤ all.flatten.length := by
    induction h with
    | slnil => exact le_rfl
    | cons piece h ih => exact ih.trans (List.suffix_append _ _).length_le
    | cons_cons piece h ih =>
        rw [List.flatten_cons, List.flatten_cons, List.length_append, List.length_append]
        exact Nat.add_le_add_left ih _
  have hlength := h.length_le
  rw [length_intercalate, length_intercalate]
  omega

/-! ### The first piece -/

theorem takeWhile_of_notMem (h : separator ∉ s) : s.takeWhile (· != separator) = s := by
  rw [List.takeWhile_eq_self_iff]
  intro c hc
  exact bne_iff_ne.mpr fun heq => h (heq ▸ hc)

theorem takeWhile_append_of_notMem {before : List Char} (h : separator ∉ before)
    (after : List Char) : (before ++ separator :: after).takeWhile (· != separator) = before := by
  rw [List.takeWhile_append_of_pos, List.takeWhile_cons_of_neg (by simp), List.append_nil]
  intro c hc
  exact bne_iff_ne.mpr fun heq => h (heq ▸ hc)

/-- A text is cut at the first character with the property. -/
theorem cutBy_append {before : List Char} (h : ∀ d ∈ before, p d = false) (hc : p c = true)
    (after : List Char) : cutBy p (before ++ c :: after) = some (before, after) := by
  have hbefore : ∀ d ∈ before, (!p d) = true := by simpa using h
  have htake : (before ++ c :: after).takeWhile (!p ·) = before := by
    rw [List.takeWhile_append_of_pos hbefore, List.takeWhile_cons_of_neg (by simp [hc]),
      List.append_nil]
  have hdrop : (before ++ c :: after).dropWhile (!p ·) = c :: after := by
    rw [List.dropWhile_append_of_pos hbefore, List.dropWhile_cons_of_neg (by simp [hc])]
  rw [cutBy, hdrop, htake]

theorem cutBy_of_forall (h : ∀ c ∈ s, p c = false) : cutBy p s = none := by
  have hdrop : s.dropWhile (!p ·) = [] := by simpa using h
  rw [cutBy, hdrop]

/-- A text in which no character has the property is not cut; else what is in front of the first
one is cut off. -/
theorem cutBy_cases (p : Char → Bool) (s : List Char) :
    ((∀ c ∈ s, p c = false) ∧ cutBy p s = none) ∨
      ∃ before c after, (∀ d ∈ before, p d = false) ∧ p c = true ∧ s = before ++ c :: after ∧
        cutBy p s = some (before, after) := by
  cases hrest : s.dropWhile (!p ·) with
  | nil =>
      have hnone : ∀ c ∈ s, p c = false := by simpa using hrest
      exact Or.inl ⟨hnone, cutBy_of_forall hnone⟩
  | cons c after =>
      have hbefore : ∀ d ∈ s.takeWhile (!p ·), p d = false := fun d hd => by
        simpa using List.mem_takeWhile_imp hd
      have hc : p c = true := by
        have hhead := List.head?_dropWhile_not (!p ·) s
        rw [hrest] at hhead
        simpa using hhead
      have hs : s = s.takeWhile (!p ·) ++ c :: after := by
        rw [← hrest, List.takeWhile_append_dropWhile]
      refine Or.inr ⟨s.takeWhile (!p ·), c, after, hbefore, hc, hs, ?_⟩
      rw [cutBy, hrest]

/-- A text read from its end has the pieces in reverse, each of them read from its end. -/
theorem splitBy_reverse (s : List Char) :
    splitBy p s.reverse = ((splitBy p s).map List.reverse).reverse := by
  induction h : s.length using Nat.strong_induction_on generalizing s with
  | h n ih =>
      subst h
      rcases cutBy_cases p s with ⟨hnone, -⟩ | ⟨before, c, after, hbefore, hc, rfl, -⟩
      · rw [splitBy_eq_singleton hnone,
          splitBy_eq_singleton fun d hd => hnone d (List.mem_reverse.mp hd)]
        rfl
      · have hafter := ih after.length (by simp; omega) after rfl
        rw [List.reverse_append, List.reverse_cons, List.append_assoc, List.singleton_append,
          splitBy_append hc, splitBy_append hc, splitBy_eq_singleton hbefore, hafter,
          splitBy_eq_singleton fun d hd => hbefore d (List.mem_reverse.mp hd)]
        simp

theorem cut_append {before : List Char} (h : separator ∉ before) (after : List Char) :
    cut separator (before ++ separator :: after) = some (before, after) := by
  have hbefore : ∀ d ∈ before, (d == separator) = false :=
    fun d hd => beq_false_of_ne fun heq => h (heq ▸ hd)
  exact cutBy_append hbefore (beq_self_eq_true separator) after

/-- There is one way only to cut at the first separator. -/
theorem append_inj_of_notMem {before after before' after' : List Char} (h : separator ∉ before)
    (h' : separator ∉ before')
    (heq : before ++ separator :: after = before' ++ separator :: after') :
    before = before' ∧ after = after' := by
  have hcut := (cut_append h after).symm.trans (heq ▸ cut_append h' after')
  exact Prod.mk.inj (Option.some.inj hcut)

theorem cut_of_not_mem (h : separator ∉ s) : cut separator s = none := by
  have hs : ∀ c ∈ s, (c == separator) = false :=
    fun c hc => beq_false_of_ne fun heq => h (heq ▸ hc)
  exact cutBy_of_forall hs

/-- A text without the separator is not cut; else what is in front of the first one is cut off. -/
theorem cut_cases (separator : Char) (s : List Char) :
    (separator ∉ s ∧ cut separator s = none) ∨
      ∃ before after, separator ∉ before ∧ s = before ++ separator :: after ∧
        cut separator s = some (before, after) := by
  by_cases h : separator ∈ s
  · obtain ⟨before, after, rfl, hbefore⟩ := List.eq_append_cons_of_mem h
    exact Or.inr ⟨before, after, hbefore, rfl, cut_append hbefore after⟩
  · exact Or.inl ⟨h, cut_of_not_mem h⟩

theorem cutLast_append {after : List Char} (h : separator ∉ after) (before : List Char) :
    cutLast separator (before ++ separator :: after) = some (before, after) := by
  have hcut := cut_append (mt List.mem_reverse.mp h) before.reverse
  rw [cutLast, List.reverse_append, List.reverse_cons, List.append_assoc, List.singleton_append,
    hcut]
  simp

theorem cutLast_of_notMem (h : separator ∉ s) : cutLast separator s = none := by
  rw [cutLast, cut_of_not_mem (mt List.mem_reverse.mp h), Option.map_none]

/-! ### Beginnings and ends -/

theorem after?_eq_some_iff {beginning rest : List Char} :
    after? beginning s = some rest ↔ s = beginning ++ rest := by
  induction beginning generalizing s with
  | nil => rw [after?, List.nil_append, Option.some.injEq]
  | cons c beginning ih =>
      cases s with
      | nil => exact ⟨fun h => (nomatch h), fun h => (nomatch h)⟩
      | cons d s =>
          rw [after?, List.cons_append, List.cons.injEq]
          by_cases h : c = d
          · rw [if_pos h, ih]
            exact (and_iff_right h.symm).symm
          · rw [if_neg h]
            exact ⟨fun hnone => (nomatch hnone), fun heq => absurd heq.1.symm h⟩

theorem before?_eq_some_iff {ending rest : List Char} :
    before? ending s = some rest ↔ s = rest ++ ending := by
  rw [before?, Option.map_eq_some_iff]
  constructor
  · rintro ⟨reversed, h, rfl⟩
    rw [after?_eq_some_iff, List.reverse_eq_iff, List.reverse_append, List.reverse_reverse] at h
    exact h
  · rintro rfl
    exact ⟨rest.reverse, after?_eq_some_iff.mpr List.reverse_append, List.reverse_reverse rest⟩

/-! ### Trimming -/

theorem trimEnd_append_of_blank (hs : ∀ c ∈ s.getLast?, isBlank c = false)
    (ht : ∀ c ∈ t, isBlank c = true) : trimEnd (s ++ t) = s := by
  rw [trimEnd, List.reverse_append, dropWhile_append_of_head? (by simpa using ht),
    List.reverse_reverse]
  rwa [List.head?_reverse]

theorem trim_of_ends (hfirst : ∀ c ∈ s.head?, isBlank c = false)
    (hlast : ∀ c ∈ s.getLast?, isBlank c = false) : trim s = s := by
  have hstart : trimStart s = s := dropWhile_of_head? hfirst
  have hend : s.reverse.dropWhile isBlank = s.reverse :=
    dropWhile_of_head? fun c hc => hlast c (List.head?_reverse ▸ hc)
  rw [trim, hstart, trimEnd, hend, List.reverse_reverse]

theorem trimStart_append (h : ∀ c ∈ t.head?, isBlank c = false) (s : List Char) :
    trimStart (s ++ t) = trimStart s ++ t := by
  rw [trimStart, trimStart, List.dropWhile_append, dropWhile_of_head? h]
  split
  · rename_i hempty
    rw [List.isEmpty_iff.mp hempty, List.nil_append]
  · rfl

theorem isPrefix_trimEnd (s : List Char) : trimEnd s <+: s := by
  rw [trimEnd, ← List.reverse_suffix, List.reverse_reverse]
  exact List.dropWhile_suffix isBlank

theorem exists_trimEnd (s : List Char) :
    ∃ after, s = trimEnd s ++ after ∧ ∀ c ∈ after, isBlank c = true := by
  refine ⟨(s.reverse.takeWhile isBlank).reverse, ?_, fun c hc => ?_⟩
  · rw [trimEnd, ← List.reverse_append, List.takeWhile_append_dropWhile, List.reverse_reverse]
  · exact List.mem_takeWhile_imp (List.mem_reverse.mp hc)

theorem isInfix_trim (s : List Char) : trim s <:+: s :=
  (isPrefix_trimEnd (trimStart s)).isInfix.trans (List.dropWhile_suffix isBlank).isInfix

theorem getLast?_trimEnd (s : List Char) : ∀ c ∈ (trimEnd s).getLast?, isBlank c = false := by
  rw [trimEnd, List.getLast?_reverse]
  exact head?_dropWhile s.reverse

theorem ends_trim (s : List Char) :
    (∀ c ∈ (trim s).head?, isBlank c = false) ∧ ∀ c ∈ (trim s).getLast?, isBlank c = false := by
  constructor
  · intro c hc
    obtain ⟨dropped, hdropped⟩ := isPrefix_trimEnd (trimStart s)
    apply head?_dropWhile (p := isBlank) s c
    rw [← trimStart, ← hdropped, List.head?_append, ← trim, Option.mem_def.mp hc]
    rfl
  · exact getLast?_trimEnd (trimStart s)

/-- A text that trimming leaves as it is has no blanks at its ends. -/
theorem ends_of_trim (h : trim s = s) :
    (∀ c ∈ s.head?, isBlank c = false) ∧ ∀ c ∈ s.getLast?, isBlank c = false := by
  have hends := ends_trim s
  rwa [h] at hends

theorem trim_eq_self_iff :
    trim s = s ↔ s.head?.any isBlank = false ∧ s.getLast?.any isBlank = false := by
  have hends {o : Option Char} : o.any isBlank = false ↔ ∀ c ∈ o, isBlank c = false := by
    cases o <;> simp
  rw [hends, hends]
  exact ⟨ends_of_trim, fun h => trim_of_ends h.1 h.2⟩

theorem trim_trim (s : List Char) : trim (trim s) = trim s :=
  trim_of_ends (ends_trim s).1 (ends_trim s).2

/-- A blank at the end of a text does not matter when it is trimmed. -/
theorem trim_append_singleton (hc : isBlank c = true) (s : List Char) :
    trim (s ++ [c]) = trim s := by
  have hend (s : List Char) : trimEnd (s ++ [c]) = trimEnd s := by
    rw [trimEnd, List.reverse_append, List.reverse_singleton, List.singleton_append,
      List.dropWhile_cons_of_pos hc]
    rfl
  rw [trim, trim, trimStart, trimStart, List.dropWhile_append]
  split
  · rename_i hs
    rw [List.isEmpty_iff.mp hs, List.dropWhile_cons_of_pos hc, List.dropWhile_nil]
  · exact hend _

theorem mem_of_mem_trim (h : c ∈ trim s) : c ∈ s := (isInfix_trim s).subset h

end TestSelection.Chars

namespace TestSelection.Text

variable {s rest : String}

theorem after?_eq_some_iff {beginning : String} :
    after? beginning s = some rest ↔ s = beginning ++ rest := by
  rw [after?, Option.map_eq_some_iff]
  constructor
  · rintro ⟨chars, h, rfl⟩
    rw [Chars.after?_eq_some_iff] at h
    rw [← String.toList_inj, h, String.toList_append, String.toList_ofList]
  · rintro rfl
    exact ⟨rest.toList, Chars.after?_eq_some_iff.mpr String.toList_append, String.ofList_toList⟩

theorem before?_eq_some_iff {ending : String} :
    before? ending s = some rest ↔ s = rest ++ ending := by
  rw [before?, Option.map_eq_some_iff]
  constructor
  · rintro ⟨chars, h, rfl⟩
    rw [Chars.before?_eq_some_iff] at h
    rw [← String.toList_inj, h, String.toList_append, String.toList_ofList]
  · rintro rfl
    exact ⟨rest.toList, Chars.before?_eq_some_iff.mpr String.toList_append, String.ofList_toList⟩

theorem map_ofList_toList (pieces : List String) :
    (pieces.map String.toList).map String.ofList = pieces := by
  rw [List.map_map]
  exact (List.map_congr_left fun piece _ => String.ofList_toList).trans (List.map_id pieces)

theorem splitAt_intercalate {separator : Char} {joint : String} {pieces : List String}
    (hjoint : joint.toList = [separator]) (hne : pieces ≠ [])
    (h : ∀ piece ∈ pieces, separator ∉ piece.toList) :
    splitAt separator (joint.intercalate pieces) = pieces := by
  have hpieces : ∀ piece ∈ pieces.map String.toList, separator ∉ piece := by simpa using h
  rw [splitAt, String.toList_intercalate, hjoint,
    Chars.splitAt_intercalate (by simpa using hne) hpieces, map_ofList_toList]

theorem startsWith_iff {beginning : String} :
    startsWith beginning s = true ↔ ∃ rest, s = beginning ++ rest := by
  rw [startsWith, Option.isSome_iff_exists]
  simp only [after?_eq_some_iff]

/-- A text that starts with another character does not start with a text. -/
theorem startsWith_append_of_ne {beginning front : String} {b c : Char}
    (hbeginning : beginning.toList.head? = some b) (hfront : front.toList.head? = some c)
    (h : b ≠ c) (rest : String) : startsWith beginning (front ++ rest) = false := by
  rw [Bool.eq_false_iff, Ne, startsWith_iff]
  rintro ⟨rest', heq⟩
  apply h
  have hhead := congrArg (·.toList.head?) heq
  simp only [String.toList_append, List.head?_append, hbeginning, hfront] at hhead
  exact (Option.some.inj hhead).symm

theorem length_trim_lt (h : trim s ≠ s) : (trim s).length < s.length := by
  have hinfix := Chars.isInfix_trim s.toList
  rw [trim, String.length_ofList, ← String.length_toList]
  refine lt_of_le_of_ne hinfix.length_le fun heq => h ?_
  rw [trim, hinfix.eq_of_length heq, String.ofList_toList]

theorem length_trim_le (s : String) : (trim s).length ≤ s.length := by
  by_cases h : trim s = s
  · rw [h]
  · exact (length_trim_lt h).le

end TestSelection.Text
