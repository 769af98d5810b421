import Mathlib.Data.List.Forall2
import TestSelection.Comment.Registry
import TestSelection.Proofs.Comment.BlockScan

/-!
Sources in segments: code, line comments, literals and block comments, each of them complete. At the
end of every segment the scan for block comments is in code again, whatever the segment holds, and
has counted its line feeds. So it finds the block comments among the segments and no others, each on
the line on which it opens.
-/

namespace TestSelection.Comment

/-- Code in which no literal and no comment opens, whatever follows it. -/
structure IsCode (s : List Char) : Prop where
  no_double : '"' ∉ s
  no_single : '\'' ∉ s
  no_line : ¬ ['/', '/'] <:+: s
  no_block : ¬ ['/', '*'] <:+: s
  no_slash : s.getLast? ≠ some '/'

/-- A piece of a source. -/
inductive Segment
  | code (s : List Char) (h : IsCode s)
  /-- Two slashes and the rest of their line. -/
  | lineComment (s : List Char) (h : '\n' ∉ s)
  | literal (quote : Char) (hquote : quote = '"' ∨ quote = '\'') (items : List (LiteralItem quote))
  | block (body : List Char) (h : ¬ ['*', '/'] <:+: body)

namespace Segment

def text : Segment → List Char
  | code s _ => s
  | lineComment s _ => '/' :: '/' :: (s ++ ['\n'])
  | literal quote _ items => quote :: (items.flatMap LiteralItem.text ++ [quote])
  | block body _ => '/' :: '*' :: (body ++ ['*', '/'])

/-- The comment that a segment makes behind the given text. -/
def comment? (before : List Char) : Segment → Option Comment
  | block body _ => some ⟨1 + lineFeeds before, clean cleanBlockLine body⟩
  | code .. | lineComment .. | literal .. => none

/-- The comments that segments make behind the given text. -/
def comments (before : List Char) : List Segment → List Comment
  | [] => []
  | segment :: rest =>
    (segment.comment? before).toList ++ comments (before ++ segment.text) rest

end Segment

/-! ### Decoration -/

/-- The line is what is kept of it with its decoration: blanks and then stars in front, as many of
each as there are, and blanks at the end. -/
inductive Decorated (kept : List Char) : (line : List Char) → Prop
  | intro {before stars after : List Char} (hbefore : ∀ c ∈ before, Chars.isBlank c = true)
      (hfirst : ∀ c ∈ (stars ++ (kept ++ after)).head?, Chars.isBlank c = false)
      (hstars : ∀ c ∈ stars, c = '*') (hkept : ∀ c ∈ (kept ++ after).head?, c ≠ '*')
      (hlast : ∀ c ∈ kept.getLast?, Chars.isBlank c = false)
      (hafter : ∀ c ∈ after, Chars.isBlank c = true) :
      Decorated kept (before ++ (stars ++ (kept ++ after)))

theorem decorated_cleanBlockLine (line : List Char) : Decorated (cleanBlockLine line) line := by
  let unindented := Chars.trimStart line
  let said := Chars.dropFront '*' unindented
  obtain ⟨after, hsaid, hafter⟩ := Chars.exists_trimEnd said
  have hkept : cleanBlockLine line ++ after = said := hsaid.symm
  have hunindented : unindented.takeWhile (· == '*') ++ said = unindented :=
    List.takeWhile_append_dropWhile
  have hline : line.takeWhile Chars.isBlank ++ unindented = line :=
    List.takeWhile_append_dropWhile
  have h : Decorated (cleanBlockLine line) (line.takeWhile Chars.isBlank ++
      (unindented.takeWhile (· == '*') ++ (cleanBlockLine line ++ after))) := by
    refine .intro (fun c hc => List.mem_takeWhile_imp hc) ?_ (fun c hc => ?_) (fun c hc => ?_)
      (Chars.getLast?_trimEnd said) hafter
    · rw [hkept, hunindented]
      exact head?_dropWhile line
    · simpa using List.mem_takeWhile_imp hc
    · rw [hkept] at hc
      simpa using head?_dropWhile unindented c hc
  rwa [hkept, hunindented, hline] at h

/-- Cleaning a line takes away its decoration and nothing else. -/
theorem cleanBlockLine_eq_iff {line kept : List Char} :
    cleanBlockLine line = kept ↔ Decorated kept line := by
  constructor
  · rintro rfl
    exact decorated_cleanBlockLine line
  · rintro ⟨hbefore, hfirst, hstars, hkept, hlast, hafter⟩
    rw [cleanBlockLine, Chars.trimStart, dropWhile_append_of_head? hbefore hfirst, Chars.dropFront,
      dropWhile_append_of_head? (by simpa using hstars) (by simpa using hkept),
      Chars.trimEnd_append_of_blank hlast hafter]

theorem cleanBlockLine_isInfix (line : List Char) : cleanBlockLine line <:+: line :=
  (Chars.isPrefix_trimEnd _).isInfix.trans
    ((List.dropWhile_suffix _).isInfix.trans (List.dropWhile_suffix _).isInfix)

/-- The text of a comment has a line for each line of its body, without the decoration. -/
theorem forall₂_decorated_clean {body : List Char} (h : body ≠ []) :
    List.Forall₂ Decorated (Chars.splitAt '\n' (clean cleanBlockLine body).toList)
      (Chars.lines body) := by
  have hlines : (Chars.lines body).map cleanBlockLine ≠ [] := by simpa [Chars.lines_eq_nil_iff]
  have hfeeds : ∀ piece ∈ (Chars.lines body).map cleanBlockLine, '\n' ∉ piece := by
    simp only [List.forall_mem_map]
    intro line hline hfeed
    exact Chars.feed_notMem_of_mem_lines hline ((cleanBlockLine_isInfix line).subset hfeed)
  rw [clean, ← Function.comp_def, ← List.map_map, Text.splitAt_unlines hlines hfeeds,
    List.forall₂_map_left_iff]
  exact List.forall₂_same.mpr fun line _ => decorated_cleanBlockLine line

/-! ### One segment after the other -/

variable {c : Char} {s rest : List Char}

theorem IsCode.of_cons (h : IsCode (c :: s)) : IsCode s where
  no_double hmem := h.no_double (List.mem_cons_of_mem c hmem)
  no_single hmem := h.no_single (List.mem_cons_of_mem c hmem)
  no_line hinfix := h.no_line (List.infix_cons hinfix)
  no_block hinfix := h.no_block (List.infix_cons hinfix)
  no_slash hlast := by
    apply h.no_slash
    rw [List.getLast?_cons, hlast]
    rfl

/-- A slash in code is not the first sign of a comment. -/
theorem IsCode.not_opens (h : IsCode ('/' :: s)) {d : Char} {t : List Char}
    (heq : s ++ rest = d :: t) : d ≠ '/' ∧ d ≠ '*' := by
  cases s with
  | nil => exact absurd rfl h.no_slash
  | cons first s =>
      obtain ⟨rfl, -⟩ := List.cons.inj heq
      constructor
      · rintro rfl
        exact h.no_line (List.prefix_append ['/', '/'] s).isInfix
      · rintro rfl
        exact h.no_block (List.prefix_append ['/', '*'] s).isInfix

theorem blocksFrom_code (h : IsCode s) (line : Nat) (rest : List Char) :
    blocksFrom line .code (s ++ rest) = blocksFrom (line + lineFeeds s) .code rest := by
  induction s generalizing line with
  | nil => rfl
  | cons c s ih =>
      have hquote : ¬ (c = '"' ∨ c = '\'') := by
        rintro (rfl | rfl)
        · exact h.no_double List.mem_cons_self
        · exact h.no_single List.mem_cons_self
      have hpassed : Passed [c] (s ++ rest) := by
        refine .plain hquote ?_
        rintro rfl d hd
        obtain ⟨t, ht⟩ := List.head?_eq_some_iff.mp hd
        exact h.not_opens ht
      rw [List.cons_append, ← List.singleton_append, blocksFrom_passed hpassed, ih h.of_cons,
        Nat.add_assoc, ← lineFeeds_append, List.singleton_append]

/-- At the end of a segment the scan is in code, on the line that the segment ends on. -/
theorem blocksFrom_segment (segment : Segment) (before rest : List Char) :
    blocksFrom (1 + lineFeeds before) .code (segment.text ++ rest)
      = (segment.comment? before).toList
        ++ blocksFrom (1 + lineFeeds (before ++ segment.text)) .code rest := by
  rw [lineFeeds_append, ← Nat.add_assoc]
  cases segment with
  | code s h => exact blocksFrom_code h _ rest
  | lineComment s h => exact blocksFrom_passed (.lineComment h (.feed rest)) _
  | literal quote hquote items => exact blocksFrom_passed (.literal hquote items (.quote rest)) _
  | block body h =>
      have hfeeds : lineFeeds (Segment.block body h).text = lineFeeds body := by
        simp [Segment.text, lineFeeds]
      rw [hfeeds, Segment.text, List.cons_append, List.cons_append, List.append_assoc,
        List.cons_append, List.singleton_append, blocksFrom_opening, blocksFrom_body h,
        List.append_nil, blockComment, List.reverse_reverse]
      rfl

theorem blocksFrom_flatMap_text (segments : List Segment) (before : List Char) :
    blocksFrom (1 + lineFeeds before) .code (segments.flatMap Segment.text)
      = Segment.comments before segments := by
  induction segments generalizing before with
  | nil => rfl
  | cons segment segments ih =>
      rw [List.flatMap_cons, blocksFrom_segment, Segment.comments, ih]

/-- Of a source in segments the block comments are found, in order, each with the line on which it
opens and without its decoration, and nothing else. -/
theorem extract_flatMap_text (segments : List Segment) :
    CommentStyle.block.extract (String.ofList (segments.flatMap Segment.text))
      = Segment.comments [] segments := by
  rw [CommentStyle.extract, String.toList_ofList]
  exact blocksFrom_flatMap_text segments []

/-- What opens a comment does not do so in a literal, behind an escaped quote and behind two
slashes. -/
example : CommentStyle.block.extract "\"\\\"/*\" // /*\na\n/** b\"\n*/" = [⟨3, " b\""⟩] := by
  decide

end TestSelection.Comment
