import Mathlib.Data.List.Basic
import TestSelection.Proofs.Cuts

/-!
Lines of a text. A text is a last line without a line feed, or a line with its line feed and a text
behind it, and its lines follow this shape. A text can be cut wherever a line starts. Lines that are
written with line feeds between them or behind them are got back, as long as they have no line feeds
in them and none ends with a carriage return.
-/

namespace TestSelection.Chars

variable {line s t : List Char} {c : Char}

/-- A text is taken apart line by line. -/
theorem lines_induction {motive : List Char → Prop}
    (last : ∀ s, '\n' ∉ s → motive s)
    (line : ∀ line rest, '\n' ∉ line → motive rest → motive (line ++ '\n' :: rest))
    (s : List Char) : motive s := by
  obtain ⟨n, hn⟩ : ∃ n, s.length = n := ⟨_, rfl⟩
  induction n using Nat.strong_induction_on generalizing s with
  | _ n ih =>
      rcases cut_cases '\n' s with ⟨hs, -⟩ | ⟨before, after, hbefore, rfl, -⟩
      · exact last s hs
      · refine line before after hbefore (ih after.length ?_ after rfl)
        rw [← hn, List.length_append, List.length_cons]
        omega

/-! ### Carriage returns -/

theorem dropReturn_of_getLast? (h : ∀ c ∈ line.getLast?, c ≠ '\r') : dropReturn line = line := by
  unfold dropReturn
  split
  · rename_i rest hreverse
    refine absurd rfl (h '\r' ?_)
    rw [← List.head?_reverse, hreverse]
    rfl
  · rfl

theorem dropReturn_append_return (line : List Char) : dropReturn (line ++ ['\r']) = line := by
  simp [dropReturn]

/-- A carriage return is dropped, or there is none to drop. -/
theorem dropReturn_cases (line : List Char) :
    dropReturn line = line ∨ line = dropReturn line ++ ['\r'] := by
  by_cases h : ∃ front, line = front ++ ['\r']
  · obtain ⟨front, rfl⟩ := h
    rw [dropReturn_append_return]
    exact Or.inr rfl
  · refine Or.inl (dropReturn_of_getLast? fun c hc heq => h ?_)
    obtain ⟨front, hfront⟩ := List.getLast?_eq_some_iff.mp hc
    exact ⟨front, heq ▸ hfront⟩

theorem mem_of_mem_dropReturn (h : c ∈ dropReturn line) : c ∈ line := by
  rcases dropReturn_cases line with heq | heq
  · rwa [heq] at h
  · rw [heq]
    exact List.mem_append_left _ h

theorem head?_dropReturn (h : c ∈ (dropReturn line).head?) : c ∈ line.head? := by
  rcases dropReturn_cases line with heq | heq
  · rwa [heq] at h
  · rw [heq]
    exact List.mem_head?_append_of_mem_head? h

theorem dropReturn_append (h : t ≠ []) (s : List Char) :
    dropReturn (s ++ t) = s ++ dropReturn t := by
  obtain ⟨front, c, rfl⟩ := (List.eq_nil_or_concat' t).resolve_left h
  by_cases hc : c = '\r'
  · rw [hc, ← List.append_assoc, dropReturn_append_return, dropReturn_append_return]
  · rw [dropReturn_of_getLast? (by simp [hc]), dropReturn_of_getLast? (by simp [hc])]

/-! ### Lines one after the other -/

theorem lines_of_notMem (h : '\n' ∉ s) : lines s = if s = [] then [] else [s] := by
  rw [lines, splitAt_of_notMem h]
  simp

@[simp] theorem lines_nil : lines [] = [] := rfl

/-- The lines of what stands before a line feed, and then those of what stands behind it. -/
theorem lines_append_feed (s t : List Char) :
    lines (s ++ '\n' :: t) = (splitAt '\n' s).map dropReturn ++ lines t := by
  obtain ⟨last, ended, hlast⟩ : ∃ last ended, (splitAt '\n' t).reverse = last :: ended := by
    apply List.exists_cons_of_ne_nil
    rw [Ne, List.reverse_eq_nil_iff]
    exact splitBy_ne_nil t
  rw [lines, lines, splitAt_append, List.reverse_append, hlast]
  by_cases hempty : last.isEmpty = true <;> simp [hempty]

theorem lines_line (h : '\n' ∉ line) (rest : List Char) :
    lines (line ++ '\n' :: rest) = dropReturn line :: lines rest := by
  rw [lines_append_feed, splitAt_of_notMem h]
  rfl

theorem lines_eq_nil_iff : lines s = [] ↔ s = [] := by
  rcases cut_cases '\n' s with ⟨hs, -⟩ | ⟨line, rest, hline, rfl, -⟩
  · rw [lines_of_notMem hs]
    by_cases h : s = [] <;> simp [h]
  · rw [lines_line hline]
    simp

theorem feed_notMem_of_mem_lines (h : line ∈ lines s) : '\n' ∉ line := by
  induction s using lines_induction with
  | last s hs =>
      rw [lines_of_notMem hs] at h
      split at h
      · exact nomatch h
      · rwa [List.mem_singleton.mp h]
  | line first rest hfirst ih =>
      rw [lines_line hfirst] at h
      rcases List.mem_cons.mp h with rfl | h
      · exact fun hmem => hfirst (mem_of_mem_dropReturn hmem)
      · exact ih h

/-- The end of a line: a line feed, or the end of the text. -/
inductive EndsLine : (ending next : List Char) → Prop
  | feed (next : List Char) : EndsLine ['\n'] next
  | stop : EndsLine [] []

theorem exists_endsLine (s : List Char) :
    ∃ line ending next, s = line ++ (ending ++ next) ∧ '\n' ∉ line ∧ EndsLine ending next := by
  rcases cut_cases '\n' s with ⟨hs, -⟩ | ⟨line, next, hline, rfl, -⟩
  · exact ⟨s, [], [], by simp, hs, .stop⟩
  · exact ⟨line, ['\n'], next, rfl, hline, .feed next⟩

/-! ### Texts of whole lines -/

def StartsLine (s : List Char) : Prop := s = [] ∨ s.getLast? = some '\n'

theorem StartsLine.append (hs : StartsLine s) (ht : StartsLine t) : StartsLine (s ++ t) := by
  rcases ht with rfl | ht
  · rwa [List.append_nil]
  · exact Or.inr (List.mem_getLast?_append_of_mem_getLast? ht)

theorem StartsLine.of_append (h : StartsLine (s ++ t)) : StartsLine t := by
  by_cases ht : t = []
  · exact Or.inl ht
  · rcases h with h | h
    · exact absurd (List.append_eq_nil_iff.mp h).2 ht
    · exact Or.inr (by rwa [List.getLast?_append_of_ne_nil s ht] at h)

theorem lines_append (h : t = [] ∨ StartsLine s) : lines (s ++ t) = lines s ++ lines t := by
  rcases h with rfl | rfl | h
  · rw [List.append_nil, lines_nil, List.append_nil]
  · rfl
  · obtain ⟨front, rfl⟩ := List.getLast?_eq_some_iff.mp h
    rw [List.append_assoc, List.singleton_append, lines_append_feed, lines_append_feed front [],
      lines_nil, List.append_nil]

/-- Whole lines are as many as there are line feeds. -/
theorem length_lines (h : StartsLine s) : (lines s).length = s.count '\n' := by
  induction s using lines_induction with
  | last s hs =>
      rcases h with rfl | h
      · rfl
      · exact absurd (List.mem_of_getLast? h) hs
  | line line rest hline ih =>
      rw [List.append_cons] at h
      rw [lines_line hline, List.length_cons, ih h.of_append, List.count_append, List.count_cons_self,
        List.count_eq_zero.mpr hline, Nat.zero_add]

/-- A text is cut behind the first lines that have a property. -/
theorem exists_lines_split (p : List Char → Bool) (s : List Char) :
    ∃ text rest, s = text ++ rest ∧ (rest = [] ∨ StartsLine text) ∧
      (∀ line ∈ lines text, p line = true) ∧ ∀ line ∈ (lines rest).head?, p line = false := by
  induction s using lines_induction with
  | last s hs =>
      by_cases hp : ∀ line ∈ lines s, p line = true
      · exact ⟨s, [], (List.append_nil s).symm, Or.inl rfl, hp, nofun⟩
      · refine ⟨[], s, rfl, Or.inr (Or.inl rfl), nofun, fun line hline => ?_⟩
        rw [lines_of_notMem hs] at hp hline
        split_ifs at hp hline
        · exact nomatch hline
        · obtain rfl := Option.some.inj hline
          simpa using hp
  | line line rest hline ih =>
      by_cases hp : p (dropReturn line) = true
      · obtain ⟨text, rest, rfl, hends, htext, hrest⟩ := ih
        refine ⟨line ++ '\n' :: text, rest, by simp, ?_, ?_, hrest⟩
        · refine hends.imp_right fun h => ?_
          rw [List.append_cons]
          exact .append (Or.inr (by simp)) h
        · rw [lines_line hline]
          exact List.forall_mem_cons.mpr ⟨hp, htext⟩
      · refine ⟨[], line ++ '\n' :: rest, rfl, Or.inr (Or.inl rfl), nofun, fun first hfirst => ?_⟩
        rw [lines_line hline] at hfirst
        obtain rfl := Option.some.inj hfirst
        exact Bool.of_not_eq_true hp

/-! ### Lines written and read again -/

/-- A line that is got back from a text in which it stands. -/
structure IsLine (line : List Char) : Prop where
  no_feed : '\n' ∉ line
  no_return : ∀ c ∈ line.getLast?, c ≠ '\r'

theorem isLine_of_trim (hfeed : '\n' ∉ line) (htrim : trim line = line) : IsLine line where
  no_feed := hfeed
  no_return := by
    rintro c hc rfl
    exact absurd ((ends_of_trim htrim).2 _ hc) (by decide)

theorem map_dropReturn {pieces : List (List Char)} (h : ∀ piece ∈ pieces, IsLine piece) :
    pieces.map dropReturn = pieces :=
  (List.map_congr_left fun piece hpiece => dropReturn_of_getLast? (h piece hpiece).no_return).trans
    (List.map_id' pieces)

/-- Lines with line feeds between them, and what is written behind a further line feed. -/
theorem lines_intercalate_append {pieces : List (List Char)} (hne : pieces ≠ [])
    (h : ∀ piece ∈ pieces, IsLine piece) (rest : List Char) :
    lines (['\n'].intercalate pieces ++ '\n' :: rest) = pieces ++ lines rest := by
  rw [lines_append_feed, splitAt_intercalate hne fun piece hpiece => (h piece hpiece).no_feed,
    map_dropReturn h]

theorem lines_intercalate {pieces : List (List Char)} (h : ∀ piece ∈ pieces, IsLine piece)
    (hne : ∀ piece ∈ pieces, piece ≠ []) : lines (['\n'].intercalate pieces) = pieces := by
  induction pieces with
  | nil => rfl
  | cons first rest ih =>
      obtain ⟨hfirst, hrest⟩ := List.forall_mem_cons.mp h
      cases rest with
      | nil =>
          rw [List.intercalate_singleton, lines_of_notMem hfirst.no_feed,
            if_neg (hne first List.mem_cons_self)]
      | cons second rest =>
          rw [List.intercalate_cons_cons, List.append_assoc, List.singleton_append,
            lines_line hfirst.no_feed, dropReturn_of_getLast? hfirst.no_return,
            ih hrest fun piece hpiece => hne piece (List.mem_cons_of_mem first hpiece)]

end TestSelection.Chars

namespace TestSelection.Text

theorem lines_intercalate {pieces : List String} (h : ∀ piece ∈ pieces, Chars.IsLine piece.toList)
    (hne : ∀ piece ∈ pieces, piece ≠ "") : lines ("\n".intercalate pieces) = pieces := by
  have hlines : ∀ piece ∈ pieces.map String.toList, Chars.IsLine piece := by simpa using h
  have hnonempty : ∀ piece ∈ pieces.map String.toList, piece ≠ [] := by simpa using hne
  have hjoint : "\n".toList = ['\n'] := rfl
  rw [lines, String.toList_intercalate, hjoint, Chars.lines_intercalate hlines hnonempty,
    map_ofList_toList]

theorem splitAt_unlines {pieces : List (List Char)} (hne : pieces ≠ [])
    (hfeeds : ∀ piece ∈ pieces, '\n' ∉ piece) :
    Chars.splitAt '\n' (unlines (pieces.map String.ofList)).toList = pieces := by
  have htexts : (pieces.map String.ofList).map String.toList = pieces := by simp
  have hfeed : "\n".toList = ['\n'] := rfl
  rw [unlines, String.toList_intercalate, hfeed, htexts, Chars.splitAt_intercalate hne hfeeds]

end TestSelection.Text
