import TestSelection.Proofs.Bytes
import TestSelection.Proofs.Cuts

/-!
Texts with single blanks. A text is squeezed by putting one blank in the place of each run of them,
and a text of evenly spaced words is one that this leaves as it is. The words of a text with single
blanks between them are the text squeezed, without the blanks at its ends.
-/

namespace TestSelection.Chars

variable {s t : List Char} {c d : Char}

/-- Each run of blanks is replaced by one blank. -/
def squeeze : List Char → List Char
  | [] => []
  | c :: s =>
    if isBlank c then if s.head?.any isBlank then squeeze s else ' ' :: squeeze s
    else c :: squeeze s

/-- There are no blanks but the one of ASCII, and no two of them in a row. -/
def EvenlySpaced (s : List Char) : Prop :=
  (∀ c ∈ s, isBlank c = true → c = ' ') ∧ ¬ [' ', ' '] <:+: s

theorem squeeze_cons_of_not (hc : isBlank c = false) (s : List Char) :
    squeeze (c :: s) = c :: squeeze s := by
  rw [squeeze, hc, if_neg Bool.false_ne_true]

theorem squeeze_blank_blank (hc : isBlank c = true) (hd : isBlank d = true) (s : List Char) :
    squeeze (c :: d :: s) = squeeze (d :: s) := by
  rw [squeeze, if_pos hc, List.head?_cons, Option.any_some, if_pos hd]

theorem squeeze_blank (hc : isBlank c = true) (hs : ∀ d ∈ s.head?, isBlank d = false) :
    squeeze (c :: s) = ' ' :: squeeze s := by
  rw [squeeze, if_pos hc, if_neg]
  cases s with
  | nil => exact Bool.false_ne_true
  | cons d s => simp [hs d rfl]

/-- The first character stays, except that a blank becomes the one of ASCII. -/
theorem head?_squeeze (s : List Char) :
    (squeeze s).head? = s.head?.map fun c => if isBlank c then ' ' else c := by
  induction s with
  | nil => rfl
  | cons c s ih =>
      by_cases hc : isBlank c = true
      · cases s with
        | nil => simp [squeeze, hc]
        | cons d s =>
            by_cases hd : isBlank d = true
            · rw [squeeze_blank_blank hc hd, ih]
              simp [hc, hd]
            · rw [squeeze_blank hc (by simpa using hd)]
              simp [hc]
      · rw [squeeze_cons_of_not (Bool.of_not_eq_true hc)]
        simp [hc]

/-- So does the last one. -/
theorem getLast?_squeeze (s : List Char) :
    (squeeze s).getLast? = s.getLast?.map fun c => if isBlank c then ' ' else c := by
  induction s with
  | nil => rfl
  | cons c s ih =>
      cases s with
      | nil => by_cases hc : isBlank c = true <;> simp [squeeze, hc]
      | cons d s =>
          obtain ⟨e, rest, hcons⟩ : ∃ e rest, squeeze (d :: s) = e :: rest := by
            have hhead := head?_squeeze (d :: s)
            rw [List.head?_cons, Option.map_some] at hhead
            obtain ⟨rest, hrest⟩ := List.head?_eq_some_iff.mp hhead
            exact ⟨_, rest, hrest⟩
          rw [List.getLast?_cons_cons, ← ih, squeeze, hcons]
          split_ifs
          · rfl
          · rw [List.getLast?_cons_cons]
          · rw [List.getLast?_cons_cons]

theorem squeeze_append (hs : ∀ c ∈ s.getLast?, isBlank c = false) (t : List Char) :
    squeeze (s ++ t) = squeeze s ++ squeeze t := by
  induction s with
  | nil => rfl
  | cons c s ih =>
      cases s with
      | nil =>
          have hc : isBlank c = false := hs c rfl
          rw [List.singleton_append, squeeze_cons_of_not hc, squeeze_cons_of_not hc]
          rfl
      | cons d s =>
          have ih := ih fun e he => hs e (by rwa [List.getLast?_cons_cons])
          by_cases hc : isBlank c = true
          · by_cases hd : isBlank d = true
            · rw [List.cons_append, List.cons_append, squeeze_blank_blank hc hd,
                squeeze_blank_blank hc hd, ← List.cons_append, ih]
            · have hother : ∀ e ∈ (d :: s).head?, isBlank e = false := by simpa using hd
              have hother' : ∀ e ∈ (d :: s ++ t).head?, isBlank e = false := by simpa using hd
              rw [List.cons_append, squeeze_blank hc hother', squeeze_blank hc hother, ih]
              rfl
          · have hc : isBlank c = false := Bool.of_not_eq_true hc
            rw [List.cons_append, squeeze_cons_of_not hc, squeeze_cons_of_not hc, ih]
            rfl

/-- Squeezing puts no blanks at the ends of a text. -/
theorem trim_squeeze_trim (s : List Char) : trim (squeeze (trim s)) = squeeze (trim s) := by
  have hkept {c d : Char} (hd : isBlank d = false) (h : (if isBlank d then ' ' else d) = c) :
      isBlank c = false := by
    rwa [← h, if_neg (Bool.eq_false_iff.mp hd)]
  obtain ⟨hfirst, hlast⟩ := ends_trim s
  apply trim_of_ends
  · intro c hc
    rw [head?_squeeze] at hc
    obtain ⟨d, hd, heq⟩ := Option.map_eq_some_iff.mp hc
    exact hkept (hfirst d hd) heq
  · intro c hc
    rw [getLast?_squeeze] at hc
    obtain ⟨d, hd, heq⟩ := Option.map_eq_some_iff.mp hc
    exact hkept (hlast d hd) heq

theorem squeeze_eq_self_of_no_blank (h : ∀ c ∈ s, isBlank c = false) : squeeze s = s := by
  induction s with
  | nil => rfl
  | cons c s ih =>
      obtain ⟨hc, hs⟩ := List.forall_mem_cons.mp h
      rw [squeeze_cons_of_not hc, ih hs]

/-- It does not matter which blanks there are. -/
theorem squeeze_map {f : Char → Char} (hblank : ∀ c, isBlank (f c) = isBlank c)
    (hother : ∀ c, isBlank c = false → f c = c) (s : List Char) :
    squeeze (s.map f) = squeeze s := by
  induction s with
  | nil => rfl
  | cons c s ih =>
      have hhead : (s.map f).head?.any isBlank = s.head?.any isBlank := by
        cases s with
        | nil => rfl
        | cons d s => exact hblank d
      rw [List.map_cons, squeeze, squeeze, hblank, hhead, ih]
      by_cases hc : isBlank c = true
      · rw [if_pos hc, if_pos hc]
      · rw [if_neg hc, if_neg hc, hother c (Bool.of_not_eq_true hc)]

theorem byteSize_squeeze_le (s : List Char) : byteSize (squeeze s) ≤ byteSize s := by
  induction s with
  | nil => exact le_rfl
  | cons c s ih =>
      have hpos : ' '.utf8Size ≤ c.utf8Size := c.utf8Size_pos
      rw [squeeze]
      split
      · split
        · rw [byteSize_cons]
          exact ih.trans (Nat.le_add_left _ _)
        · rw [byteSize_cons, byteSize_cons]
          exact Nat.add_le_add hpos ih
      · rw [byteSize_cons, byteSize_cons]
        exact Nat.add_le_add_left ih _

/-! ### Evenly spaced texts -/

theorem evenlySpaced_cons :
    EvenlySpaced (c :: s) ↔
      (isBlank c = true → c = ' ' ∧ ∀ d ∈ s.head?, isBlank d = false) ∧ EvenlySpaced s := by
  rw [EvenlySpaced, EvenlySpaced, List.forall_mem_cons, List.infix_cons_iff]
  constructor
  · rintro ⟨⟨hc, hs⟩, hpair⟩
    refine ⟨fun hblank => ⟨hc hblank, fun d hd => ?_⟩, hs, fun hinfix => hpair (Or.inr hinfix)⟩
    obtain ⟨rest, rfl⟩ := List.head?_eq_some_iff.mp hd
    by_contra hdblank
    obtain rfl := hc hblank
    obtain rfl := hs d List.mem_cons_self (Bool.of_not_eq_false hdblank)
    exact hpair (Or.inl ⟨rest, rfl⟩)
  · rintro ⟨hc, hs, hpair⟩
    refine ⟨⟨fun hblank => (hc hblank).1, hs⟩, ?_⟩
    rintro (⟨rest, heq⟩ | hinfix)
    · obtain ⟨rfl, rfl⟩ := List.cons.inj heq
      exact absurd ((hc (by decide)).2 ' ' rfl) (by decide)
    · exact hpair hinfix

theorem evenlySpaced_squeeze (s : List Char) : EvenlySpaced (squeeze s) := by
  induction s with
  | nil => exact ⟨nofun, by simp [squeeze]⟩
  | cons c s ih =>
      rw [squeeze]
      split
      · split
        · exact ih
        · rename_i hhead
          refine evenlySpaced_cons.mpr ⟨fun _ => ⟨rfl, fun d hd => ?_⟩, ih⟩
          rw [head?_squeeze] at hd
          obtain ⟨e, he, rfl⟩ := Option.map_eq_some_iff.mp hd
          have he : isBlank e = false := by simpa [he] using hhead
          rw [he, if_neg Bool.false_ne_true, he]
      · rename_i hc
        exact evenlySpaced_cons.mpr ⟨fun hblank => absurd hblank hc, ih⟩

/-- Squeezing leaves the evenly spaced texts as they are, and no others. -/
theorem squeeze_eq_self_iff : squeeze s = s ↔ EvenlySpaced s := by
  constructor
  · exact fun h => h ▸ evenlySpaced_squeeze s
  · intro h
    induction s with
    | nil => rfl
    | cons c s ih =>
        obtain ⟨hc, hs⟩ := evenlySpaced_cons.mp h
        by_cases hblank : isBlank c = true
        · obtain ⟨rfl, hhead⟩ := hc hblank
          rw [squeeze_blank hblank hhead, ih hs]
        · rw [squeeze_cons_of_not (Bool.of_not_eq_true hblank), ih hs]

/-! ### Words -/

theorem words_blank (hc : isBlank c = true) (s : List Char) : words (c :: s) = words s := by
  rw [words, splitBy, if_pos hc]
  rfl

theorem words_cons_of_break (hc : isBlank c = false) (hs : ∀ d ∈ s.head?, isBlank d = true) :
    words (c :: s) = [c] :: words s := by
  cases s with
  | nil => simp [words, splitBy, hc]
  | cons d s => simp [words, splitBy, hc, hs d rfl]

theorem words_cons_cons (hc : isBlank c = false) (hd : isBlank d = false) (s : List Char) :
    ∃ word rest, words (d :: s) = word :: rest ∧ words (c :: d :: s) = (c :: word) :: rest := by
  obtain ⟨part, parts, hparts⟩ := List.exists_cons_of_ne_nil (splitBy_ne_nil (p := isBlank) s)
  exact ⟨d :: part, parts.filter (!·.isEmpty), by simp [words, splitBy, hd, hparts],
    by simp [words, splitBy, hc, hd, hparts]⟩

theorem trimEnd_cons (c : Char) (s : List Char) :
    trimEnd (c :: s) = if trimEnd s = [] ∧ isBlank c = true then [] else c :: trimEnd s := by
  rw [trimEnd, trimEnd, List.reverse_cons, List.dropWhile_append]
  by_cases hs : s.reverse.dropWhile isBlank = []
  · by_cases hc : isBlank c = true
    · simp [hs, hc]
    · simp [hs, hc]
  · simp [hs]

theorem trimEnd_cons_of_not (hc : isBlank c = false) (s : List Char) :
    trimEnd (c :: s) = c :: trimEnd s := by
  rw [trimEnd_cons, if_neg]
  exact fun h => absurd h.2 (by simp [hc])

theorem trimEnd_cons_of_ne_nil (hs : trimEnd s ≠ []) (c : Char) :
    trimEnd (c :: s) = c :: trimEnd s := by
  rw [trimEnd_cons, if_neg fun h => hs h.1]

/-- Nothing is dropped in front of a character that is not a blank. -/
theorem trimEnd_append (hne : s ≠ []) (hs : ∀ c ∈ s.getLast?, isBlank c = false) (t : List Char) :
    trimEnd (s ++ t) = s ++ trimEnd t := by
  induction s with
  | nil => exact absurd rfl hne
  | cons c s ih =>
      cases s with
      | nil => exact trimEnd_cons_of_not (hs c rfl) t
      | cons d s =>
          have ih := ih (List.cons_ne_nil d s) fun e he => hs e (by rwa [List.getLast?_cons_cons])
          have hrest : trimEnd (d :: s ++ t) ≠ [] := by
            rw [ih]
            exact List.cons_ne_nil _ _
          rw [List.cons_append, trimEnd_cons_of_ne_nil hrest, ih]
          rfl

theorem trim_blank (hc : isBlank c = true) (s : List Char) : trim (c :: s) = trim s := by
  rw [trim, trimStart, List.dropWhile_cons_of_pos hc]
  rfl

theorem trim_of_head (hs : ∀ c ∈ s.head?, isBlank c = false) : trim s = trimEnd s := by
  rw [trim, trimStart, dropWhile_of_head? hs]

theorem trim_cons_of_not (hc : isBlank c = false) (s : List Char) :
    trim (c :: s) = c :: trimEnd s := by
  rw [trim_of_head (by simpa using hc), trimEnd_cons_of_not hc]

theorem trimEnd_eq_nil_iff : trimEnd s = [] ↔ ∀ c ∈ s, isBlank c = true := by
  rw [trimEnd, List.reverse_eq_nil_iff, List.dropWhile_eq_nil_iff]
  simp

theorem trim_eq_nil_iff : trim s = [] ↔ ∀ c ∈ s, isBlank c = true := by
  induction s with
  | nil => simp [trim, trimStart, trimEnd]
  | cons c s ih =>
      rw [List.forall_mem_cons]
      by_cases hc : isBlank c = true
      · rw [trim_blank hc, ih, and_iff_right hc]
      · rw [trim_cons_of_not (Bool.of_not_eq_true hc)]
        simp [hc]

theorem words_eq_nil_iff : words s = [] ↔ ∀ c ∈ s, isBlank c = true := by
  induction s with
  | nil => simp [words, splitBy]
  | cons c s ih =>
      rw [List.forall_mem_cons]
      by_cases hc : isBlank c = true
      · rw [words_blank hc, ih, and_iff_right hc]
      · refine iff_of_false ?_ fun h => hc h.1
        obtain ⟨part, parts, hparts⟩ := List.exists_cons_of_ne_nil (splitBy_ne_nil (p := isBlank) s)
        simp [words, splitBy, hc, hparts]

/-- Blanks in front of a text that has other characters are squeezed to one. -/
theorem squeeze_trimEnd_blank (hc : isBlank c = true) (hs : trim s ≠ []) :
    squeeze (trimEnd (c :: s)) = ' ' :: squeeze (trim s) := by
  have hne : trimEnd s ≠ [] := fun h => hs (trim_eq_nil_iff.mpr (trimEnd_eq_nil_iff.mp h))
  rw [trimEnd_cons_of_ne_nil hne]
  induction s generalizing c with
  | nil => exact absurd rfl hs
  | cons d s ih =>
      by_cases hd : isBlank d = true
      · rw [trim_blank hd] at hs ⊢
        have hend : trimEnd s ≠ [] := fun h => hs (trim_eq_nil_iff.mpr (trimEnd_eq_nil_iff.mp h))
        rw [trimEnd_cons_of_ne_nil hend, squeeze_blank_blank hc hd, ih hd hs hend]
      · have hd : isBlank d = false := Bool.of_not_eq_true hd
        rw [trimEnd_cons_of_not hd, trim_cons_of_not hd, squeeze_blank hc (by simpa using hd)]

/-- The words of a text, with one blank between any two, are the text squeezed between its ends. -/
theorem intercalate_words (s : List Char) : [' '].intercalate (words s) = squeeze (trim s) := by
  induction s with
  | nil => rfl
  | cons c s ih =>
      by_cases hc : isBlank c = true
      · rw [words_blank hc, trim_blank hc, ih]
      · have hc : isBlank c = false := Bool.of_not_eq_true hc
        rw [trim_cons_of_not hc, squeeze_cons_of_not hc]
        by_cases hblank : ∀ d ∈ s, isBlank d = true
        · have hbreak : ∀ d ∈ s.head?, isBlank d = true :=
            fun d hd => hblank d (List.mem_of_mem_head? hd)
          rw [words_cons_of_break hc hbreak, words_eq_nil_iff.mpr hblank,
            trimEnd_eq_nil_iff.mpr hblank, List.intercalate_singleton]
          rfl
        · obtain ⟨word, rest, hwords⟩ :=
            List.exists_cons_of_ne_nil (mt words_eq_nil_iff.mp hblank)
          have htrim : trim s ≠ [] := mt trim_eq_nil_iff.mp hblank
          cases s with
          | nil => exact absurd rfl htrim
          | cons d s =>
              by_cases hd : isBlank d = true
              · have hbreak : ∀ e ∈ (d :: s).head?, isBlank e = true := by simpa using hd
                rw [trim_blank hd] at htrim ih
                rw [words_cons_of_break hc hbreak, squeeze_trimEnd_blank hd htrim, ← ih, hwords,
                  List.intercalate_cons_cons]
                rfl
              · have hd : isBlank d = false := Bool.of_not_eq_true hd
                obtain ⟨word', rest', hword, hwords'⟩ := words_cons_cons hc hd s
                rw [hwords', ← trim_of_head (by simpa using hd), ← ih, hword]
                cases rest' with
                | nil => rw [List.intercalate_singleton, List.intercalate_singleton]
                | cons next rest' =>
                    rw [List.intercalate_cons_cons, List.intercalate_cons_cons]
                    rfl

end TestSelection.Chars

namespace TestSelection.Text

/-- Each run of blanks is replaced by one blank. -/
def squeeze (text : String) : String := String.ofList (Chars.squeeze text.toList)

theorem squeeze_eq_self_iff {text : String} :
    squeeze text = text ↔ Chars.EvenlySpaced text.toList := by
  rw [← Chars.squeeze_eq_self_iff, squeeze, ← String.toList_inj, String.toList_ofList]

/-- Where line breaks are the only blanks that are not evenly spaced, they are all that changes. -/
theorem squeeze_eq_swap {text : String} (h : Chars.EvenlySpaced (swap '\n' ' ' text).toList) :
    squeeze text = swap '\n' ' ' text := by
  rw [← squeeze_eq_self_iff.mpr h, squeeze, squeeze, swap, String.toList_ofList,
    Chars.squeeze_map]
  · intro c
    by_cases hc : (c == '\n') = true
    · rw [if_pos hc, beq_iff_eq.mp hc]
      rfl
    · rw [if_neg hc]
  · intro c hc
    rw [if_neg]
    rintro heq
    rw [beq_iff_eq.mp heq] at hc
    exact absurd hc (by decide)

theorem swap_eq_self_iff {old new : Char} (hne : old ≠ new) {text : String} :
    swap old new text = text ↔ old ∉ text.toList := by
  rw [swap, ← String.toList_inj, String.toList_ofList, ← List.map_id text.toList, List.map_map,
    List.map_inj_left]
  simp only [List.map_id, Function.comp_apply, id_eq, ite_eq_right_iff, beq_iff_eq]
  exact ⟨fun h hold => hne (h old hold rfl).symm, fun h c hc heq => absurd (heq ▸ hc) h⟩

theorem toList_fold (text : String) :
    (fold text).toList = Chars.squeeze (Chars.trim text.toList) := by
  rw [← Chars.intercalate_words, fold, words, String.toList_intercalate, List.map_map]
  simp

/-- A text on one line is not longer. -/
theorem utf8ByteSize_fold_le (text : String) :
    (fold text).utf8ByteSize ≤ text.utf8ByteSize := by
  obtain ⟨before, after, htext⟩ := Chars.isInfix_trim text.toList
  have hsize := congrArg Chars.byteSize htext
  have hle := Chars.byteSize_squeeze_le (Chars.trim text.toList)
  rw [Chars.byteSize_append, Chars.byteSize_append] at hsize
  rw [← Chars.byteSize_toList, ← Chars.byteSize_toList text, toList_fold]
  omega

end TestSelection.Text
