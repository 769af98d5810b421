import TestSelection.Comment.Registry
import TestSelection.Proofs.Comment.HtmlScan
import TestSelection.Proofs.Comment.ShellScan
import TestSelection.Proofs.Lists

/-!
Where the comments of a source stand. A source consists of gaps and of comments by turns, and each
comment has the line on which its first sign stands. What may be in a gap, and what makes a comment,
differs from style to style; a scan that goes on from one place of a source to the next lays out all
of it if it does so at every place.
-/

namespace TestSelection

namespace Comment

/-! ### Gaps -/

/-- A gap between block comments. -/
inductive Gap : (gap next : List Char) → Prop
  | nil (next : List Char) : Gap [] next
  | cons {piece gap next : List Char} (hpiece : Passed piece (gap ++ next)) (h : Gap gap next) :
      Gap (piece ++ gap) next

/-! ### Comments -/

/-- A comment from its opening up to the first closing behind it; without a closing it goes on to the
end of the source. -/
inductive Delimited (opening closing : List Char) (cleanLine : List Char → List Char) :
    (text rest : List Char) → (said : String) → Prop
  | closed {body : List Char} (hbody : ¬ closing <:+: body) (rest : List Char) :
      Delimited opening closing cleanLine (opening ++ (body ++ closing)) rest (clean cleanLine body)
  | unclosed {body : List Char} (hbody : ¬ closing <:+: body) :
      Delimited opening closing cleanLine (opening ++ body) [] (clean cleanLine body)

/-- A maximal run of lines of a shell comment, from its first number sign on. -/
structure IsRun (before text rest : List Char) (said : String) : Prop where
  opens : text.head? = some '#'
  /-- In front of the number sign there are only blanks on its line. -/
  indented : ∃ earlier indent, before = earlier ++ indent ∧ Chars.StartsLine earlier ∧
    ∀ c ∈ indent, Chars.isBlank c = true ∧ c ≠ '\n'
  lines : ∃ pieces : List (List Char),
    (Chars.lines text).map shellLine? = pieces.map some ∧
      said = Text.unlines (pieces.map String.ofList)
  ends : rest = [] ∨ Chars.StartsLine text
  maximal : ∀ line ∈ (Chars.lines rest).head?, shellLine? line = none

end Comment

namespace CommentStyle

open Comment

/-- There is no comment in a gap. -/
def Skips : CommentStyle → (gap next : List Char) → Prop
  | block, gap, next => Gap gap next
  | shell, gap, _ => ∀ line ∈ Chars.lines gap, shellLine? line = none
  | html, gap, _ => ¬ htmlOpening <:+: gap

/-- A stretch of a source is a comment, with what it says. -/
def Stands : CommentStyle → (before text rest : List Char) → (said : String) → Prop
  | block, _, text, rest, said => Delimited ['/', '*'] ['*', '/'] cleanBlockLine text rest said
  | shell, before, text, rest, said => IsRun before text rest said
  | html, _, text, rest, said => Delimited htmlOpening htmlClosing Chars.trim text rest said

/-- The comments of the rest of a source, one behind the other with gaps between them. Each stands on
the line of its first character, counted by the line feeds in front of it. -/
inductive Laid (style : CommentStyle) : (before source : List Char) → List Comment → Prop
  | last {before gap : List Char} (hgap : style.Skips gap []) : Laid style before gap []
  | next {before gap text rest : List Char} {said : String} {comments : List Comment}
      (hgap : style.Skips gap (text ++ rest)) (hstands : style.Stands (before ++ gap) text rest said)
      (hrest : Laid style (before ++ gap ++ text) rest comments) :
      Laid style before (gap ++ (text ++ rest))
        (⟨1 + lineFeeds (before ++ gap), said⟩ :: comments)

variable {style : CommentStyle} {before source piece : List Char} {comments : List Comment}

theorem skips_nil (style : CommentStyle) (next : List Char) : style.Skips [] next := by
  cases style with
  | block => exact .nil next
  | shell => exact nofun
  | html => exact fun h => absurd (List.infix_nil.mp h) (List.cons_ne_nil _ _)

/-- A piece in front of a source that starts no comment belongs to the first gap. -/
theorem Laid.append_left (h : style.Laid (before ++ piece) source comments)
    (hpiece : ∀ gap next, source = gap ++ next → style.Skips gap next →
      style.Skips (piece ++ gap) next) : style.Laid before (piece ++ source) comments := by
  cases h with
  | last hgap => exact .last (hpiece source [] (List.append_nil source).symm hgap)
  | @next _ gap text rest said comments hgap hstands hrest =>
      rw [List.append_assoc before piece gap] at hstands hrest
      rw [← List.append_assoc piece gap, List.append_assoc before piece gap]
      exact .next (hpiece gap (text ++ rest) rfl hgap) hstands hrest

/-! ### Scans -/

variable {scan : Nat → List Char → List Comment} {Inv : (before source : List Char) → Prop}

/-- What a scan does next behind a text: it stops, it passes over a piece, or it takes a comment. -/
inductive Step (style : CommentStyle) (scan : Nat → List Char → List Comment)
    (Inv : (before source : List Char) → Prop) (before : List Char) : (source : List Char) → Prop
  | stop (hscan : ∀ line, scan line [] = []) : Step style scan Inv before []
  | pass {piece next : List Char} (hne : piece ≠ [])
      (hpiece : ∀ gap rest, next = gap ++ rest → style.Skips gap rest →
        style.Skips (piece ++ gap) rest)
      (hinv : Inv (before ++ piece) next)
      (hscan : ∀ line, scan line (piece ++ next) = scan (line + lineFeeds piece) next) :
      Step style scan Inv before (piece ++ next)
  | take {gap text rest : List Char} {said : String} (hne : text ≠ [])
      (hgap : style.Skips gap (text ++ rest)) (hstands : style.Stands (before ++ gap) text rest said)
      (hinv : Inv (before ++ gap ++ text) rest)
      (hscan : ∀ line, scan line (gap ++ (text ++ rest))
        = ⟨line + lineFeeds gap, said⟩ :: scan (line + lineFeeds gap + lineFeeds text) rest) :
      Step style scan Inv before (gap ++ (text ++ rest))

/-- A comment may stand at the place itself, without a gap. -/
theorem Step.take_first {text rest : List Char} {said : String} (hne : text ≠ [])
    (hstands : style.Stands before text rest said) (hinv : Inv (before ++ text) rest)
    (hscan : ∀ line, scan line (text ++ rest) = ⟨line, said⟩ :: scan (line + lineFeeds text) rest) :
    style.Step scan Inv before (text ++ rest) := by
  rw [← List.append_nil before] at hstands hinv
  exact .take hne (skips_nil style _) hstands hinv hscan

/-- A scan that takes what stands between an opening and a closing. -/
structure Delimits (style : CommentStyle) (scan : Nat → List Char → List Comment)
    (opening closing : List Char) (cleanLine : List Char → List Char) : Prop where
  opening_ne_nil : opening ≠ []
  closing_ne_nil : closing ≠ []
  lineFeeds_opening : lineFeeds opening = 0
  lineFeeds_closing : lineFeeds closing = 0
  stands : ∀ before text rest said, Delimited opening closing cleanLine text rest said →
    style.Stands before text rest said
  nil : ∀ line, scan line [] = []
  closed : ∀ body rest line, ¬ closing <:+: body →
    scan line (opening ++ (body ++ (closing ++ rest)))
      = ⟨line, clean cleanLine body⟩ :: scan (line + lineFeeds body) rest
  unclosed : ∀ body line, ¬ closing <:+: body →
    scan line (opening ++ body) = [⟨line, clean cleanLine body⟩]

theorem Delimits.step {opening closing : List Char} {cleanLine : List Char → List Char}
    (h : style.Delimits scan opening closing cleanLine) (before inside : List Char) :
    style.Step scan (fun _ _ => True) before (opening ++ inside) := by
  rcases exists_first_infix h.closing_ne_nil inside with hbody | ⟨body, rest, rfl, hbody⟩
  · rw [← List.append_nil (opening ++ inside)]
    refine .take_first ?_ (h.stands _ _ _ _ (.unclosed hbody)) trivial fun line => ?_
    · simp [h.opening_ne_nil]
    · rw [List.append_nil, h.unclosed inside line hbody, h.nil]
  · have hfeeds : lineFeeds (opening ++ (body ++ closing)) = lineFeeds body := by
      rw [lineFeeds_append, lineFeeds_append, h.lineFeeds_opening, h.lineFeeds_closing,
        Nat.zero_add, Nat.add_zero]
    rw [← List.append_assoc body, ← List.append_assoc opening]
    refine .take_first ?_ (h.stands _ _ _ _ (.closed hbody rest)) trivial fun line => ?_
    · simp [h.opening_ne_nil]
    · rw [List.append_assoc, List.append_assoc, h.closed body rest line hbody, hfeeds]

/-- A scan that has a next step everywhere lays out the whole source. -/
theorem laid_of_step (hstep : ∀ before source, Inv before source →
      style.Step scan Inv before source) (h : Inv before source) :
    style.Laid before source (scan (1 + lineFeeds before) source) := by
  obtain ⟨n, hn⟩ : ∃ n, source.length = n := ⟨_, rfl⟩
  induction n using Nat.strong_induction_on generalizing before source with
  | _ n ih =>
      cases hstep before source h with
      | stop hscan =>
          rw [hscan]
          exact .last (skips_nil style [])
      | @pass piece next hne hpiece hinv hscan =>
          have hlength : next.length < n := by
            have := List.length_pos_of_ne_nil hne
            rw [List.length_append] at hn
            omega
          rw [hscan, Nat.add_assoc, ← lineFeeds_append]
          exact (ih next.length hlength hinv rfl).append_left hpiece
      | @take gap text rest said hne hgap hstands hinv hscan =>
          have hlength : rest.length < n := by
            have := List.length_pos_of_ne_nil hne
            rw [List.length_append, List.length_append] at hn
            omega
          have hrest := ih rest.length hlength hinv rfl
          rw [lineFeeds_append, ← Nat.add_assoc, lineFeeds_append, ← Nat.add_assoc] at hrest
          rw [hscan, Nat.add_assoc 1, ← lineFeeds_append]
          rw [Nat.add_assoc 1, ← lineFeeds_append] at hrest
          exact .next hgap hstands hrest

end CommentStyle

end TestSelection
