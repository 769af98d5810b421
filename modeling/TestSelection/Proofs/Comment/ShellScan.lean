import TestSelection.Comment.Shell
import TestSelection.Proofs.Comment.BlockScan

/-!
The scan for shell comments, from one line outside of comments to the next. It counts lines, and as
it goes over whole lines these are as many as the line feeds. A run of lines makes a comment, which
stands on the line of the first number sign.
-/

namespace TestSelection.Comment

open Chars

variable {c : Char} {s line text rest indent : List Char} {lines others pieces : List (List Char)}

/-! ### Lines of comments -/

/-- Blanks in front of a line do not matter. -/
theorem shellLine?_append (hindent : ∀ c ∈ indent, isBlank c = true) (s : List Char) :
    shellLine? (indent ++ s) = shellLine? s := by
  rw [shellLine?, trimStart, List.dropWhile_append_of_pos hindent]
  rfl

theorem shellLine?_of_forall (h : ∀ c ∈ s, isBlank c = true) : shellLine? s = none := by
  have hall := shellLine?_append h []
  rwa [List.append_nil] at hall

theorem shellLine?_cons (hc : isBlank c = false) (s : List Char) :
    shellLine? (c :: s) = if c = '#' ∧ s.head? ≠ some '!' then some (trim s) else none := by
  rw [shellLine?, trimStart, List.dropWhile_cons_of_neg (by simp [hc])]
  split
  · simp_all
  · rename_i body hbody heq
    obtain ⟨rfl, rfl⟩ := List.cons.inj heq
    refine (if_pos ⟨rfl, fun hhead => ?_⟩).symm
    obtain ⟨rest, hrest⟩ := List.head?_eq_some_iff.mp hhead
    exact hbody rest hrest
  · simp_all

theorem shellLine?_isSome (h : (shellLine? s).isSome) :
    ∃ indent body, s = indent ++ '#' :: body ∧ ∀ c ∈ indent, isBlank c = true := by
  unfold shellLine? at h
  split at h
  · exact nomatch h
  · rename_i body _ hstart
    refine ⟨s.takeWhile isBlank, body, ?_, fun c hc => List.mem_takeWhile_imp hc⟩
    rw [← hstart, trimStart, List.takeWhile_append_dropWhile]
  · exact nomatch h

/-- A carriage return at the end of a line is a blank. -/
theorem shellLine?_dropReturn (line : List Char) : shellLine? (dropReturn line) = shellLine? line := by
  rcases dropReturn_cases line with heq | heq
  · rw [heq]
  · generalize dropReturn line = shown at heq
    subst heq
    rcases cutBy_cases (!isBlank ·) shown with
      ⟨hblank, -⟩ | ⟨indent, d, body, hindent, hd, rfl, -⟩
    · have hblank : ∀ c ∈ shown, isBlank c = true := by simpa using hblank
      rw [shellLine?_of_forall hblank, shellLine?_append hblank]
      rfl
    · have hindent : ∀ c ∈ indent, isBlank c = true := by simpa using hindent
      have hd : isBlank d = false := by simpa using hd
      rw [List.append_assoc, shellLine?_append hindent, shellLine?_append hindent,
        List.cons_append, shellLine?_cons hd, shellLine?_cons hd, trim_append_singleton rfl]
      cases body <;> simp

theorem map_lines_endsLine {ending next : List Char} (hline : '\n' ∉ line)
    (hne : line ++ ending ≠ []) (h : EndsLine ending next) :
    (Chars.lines (line ++ (ending ++ next))).map shellLine?
      = shellLine? line :: (Chars.lines next).map shellLine? := by
  cases h with
  | feed next =>
      rw [List.singleton_append, lines_line hline, List.map_cons, shellLine?_dropReturn]
  | stop =>
      rw [List.append_nil] at hne
      rw [List.append_nil, List.append_nil, lines_of_notMem hline, if_neg hne]
      rfl

/-- Lines that say something have a number sign with only blanks in front of it, and say the same
without these. -/
theorem exists_number_sign {run : List Char} (hne : run ≠ [])
    (h : (Chars.lines run).map shellLine? = pieces.map some) :
    ∃ indent text, run = indent ++ text ∧ text.head? = some '#' ∧
      (∀ c ∈ indent, isBlank c = true ∧ c ≠ '\n') ∧
      (Chars.lines text).map shellLine? = pieces.map some := by
  obtain ⟨line, ending, next, rfl, hline, hending⟩ := exists_endsLine run
  have hfirst : line ++ ending ≠ [] := by
    intro hempty
    obtain ⟨rfl, rfl⟩ := List.append_eq_nil_iff.mp hempty
    cases hending
    exact hne rfl
  rw [map_lines_endsLine hline hfirst hending] at h
  cases pieces with
  | nil => exact nomatch h
  | cons piece pieces =>
      rw [List.map_cons, List.cons.injEq] at h
      obtain ⟨hpiece, hpieces⟩ := h
      obtain ⟨indent, body, rfl, hindent⟩ := shellLine?_isSome (Option.isSome_of_eq_some hpiece)
      have hbody : '\n' ∉ '#' :: body := fun hmem => hline (List.mem_append_right indent hmem)
      refine ⟨indent, '#' :: body ++ (ending ++ next), by simp, rfl, fun c hc => ?_, ?_⟩
      · exact ⟨hindent c hc, fun heq => hline (List.mem_append_left _ (heq ▸ hc))⟩
      · rw [map_lines_endsLine hbody (by simp) hending, hpieces, List.map_cons, ← hpiece,
          shellLine?_append hindent]

/-! ### Runs of lines -/

theorem shellRuns_skip (h : ∀ l ∈ lines, shellLine? l = none) (number : Nat)
    (others : List (List Char)) :
    shellRuns number none (lines ++ others) = shellRuns (number + lines.length) none others := by
  induction lines generalizing number with
  | nil => rfl
  | cons l lines ih =>
      obtain ⟨hl, hlines⟩ := List.forall_mem_cons.mp h
      have hnumber : number + 1 + lines.length = number + (l :: lines).length :=
        Nat.succ_add_eq_add_succ number lines.length
      simp only [List.cons_append, shellRuns, hl]
      rw [ih hlines, hnumber]

theorem shellRuns_append (h : lines.map shellLine? = pieces.map some) (number start : Nat)
    (said others : List (List Char)) :
    shellRuns number (some (start, said)) (lines ++ others)
      = shellRuns (number + lines.length) (some (start, pieces.reverse ++ said)) others := by
  induction lines generalizing pieces number said with
  | nil =>
      obtain rfl := List.map_eq_nil_iff.mp h.symm
      rfl
  | cons l lines ih =>
      cases pieces with
      | nil => exact nomatch h
      | cons piece pieces =>
          rw [List.map_cons, List.map_cons, List.cons.injEq] at h
          obtain ⟨hl, hlines⟩ := h
          have hnumber : number + 1 + lines.length = number + (l :: lines).length :=
            Nat.succ_add_eq_add_succ number lines.length
          simp only [List.cons_append, shellRuns, hl]
          rw [ih hlines, hnumber, List.reverse_cons, List.append_assoc, List.singleton_append]

theorem shellRuns_close (h : ∀ l ∈ others.head?, shellLine? l = none) (number start : Nat)
    (said : List (List Char)) :
    shellRuns number (some (start, said)) others
      = shellComment start said :: shellRuns number none others := by
  cases others with
  | nil => rfl
  | cons l others => simp only [shellRuns, h l rfl]

/-- The lines of a run make one comment, which the next other line closes. -/
theorem shellRuns_run (h : lines.map shellLine? = pieces.map some) (hne : lines ≠ [])
    (hothers : ∀ l ∈ others.head?, shellLine? l = none) (number : Nat) :
    shellRuns number none (lines ++ others)
      = shellComment number pieces.reverse :: shellRuns (number + lines.length) none others := by
  cases lines with
  | nil => exact absurd rfl hne
  | cons l lines =>
      cases pieces with
      | nil => exact nomatch h
      | cons piece pieces =>
          rw [List.map_cons, List.map_cons, List.cons.injEq] at h
          obtain ⟨hl, hlines⟩ := h
          have hnumber : number + 1 + lines.length = number + (l :: lines).length :=
            Nat.succ_add_eq_add_succ number lines.length
          simp only [List.cons_append, shellRuns, hl]
          rw [shellRuns_append hlines, shellRuns_close hothers, hnumber, List.reverse_cons]

/-- Behind a gap of whole lines a run makes a comment. It is on the line behind the gap, and the scan
goes on with the line behind the run. -/
theorem shellRuns_append_run {gap run : List Char}
    (hgap : ∀ l ∈ Chars.lines gap, shellLine? l = none) (hstart : StartsLine gap)
    (hrun : (Chars.lines run).map shellLine? = pieces.map some) (hne : run ≠ [])
    (hends : rest = [] ∨ StartsLine run)
    (hrest : ∀ l ∈ (Chars.lines rest).head?, shellLine? l = none) (number : Nat) :
    shellRuns number none (Chars.lines (gap ++ (run ++ rest)))
      = ⟨number + lineFeeds gap, Text.unlines (pieces.map String.ofList)⟩
        :: shellRuns (number + lineFeeds gap + lineFeeds run) none (Chars.lines rest) := by
  have hlines : Chars.lines run ≠ [] := mt lines_eq_nil_iff.mp hne
  rw [lines_append (Or.inr hstart), lines_append hends, shellRuns_skip hgap,
    shellRuns_run hrun hlines hrest, length_lines hstart, shellComment, List.reverse_reverse]
  rcases hends with rfl | hends
  · rfl
  · rw [length_lines hends]
    rfl

end TestSelection.Comment
