import Mathlib.Data.List.Infix
import TestSelection.Comment.Block
import TestSelection.Proofs.Lines

/-!
The scan for block comments, from one place in code to the next. At every place a comment opens, or
there is something to pass over: a character, the rest of a line behind two slashes, or a literal,
closed or not. Behind it the scan is in code again and has counted the line feeds.
-/

namespace TestSelection.Comment

open Chars

variable {c quote : Char} {s body piece ending next : List Char}

theorem lineFeeds_append (s t : List Char) : lineFeeds (s ++ t) = lineFeeds s + lineFeeds t :=
  List.count_append

theorem lineFeeds_cons (c : Char) (s : List Char) :
    lineFeeds (c :: s) = (if c = '\n' then 1 else 0) + lineFeeds s := by
  rw [lineFeeds, lineFeeds, List.count_cons, Nat.add_comm]
  simp

theorem lineFeeds_of_notMem (h : '\n' ∉ s) : lineFeeds s = 0 := List.count_eq_zero.mpr h

/-! ### One character -/

/-- A character of code that opens nothing. -/
theorem blocksFrom_code_cons (hquote : ¬ (c = '"' ∨ c = '\''))
    (hslash : c = '/' → ∀ d ∈ s.head?, d ≠ '/' ∧ d ≠ '*') (line : Nat) :
    blocksFrom line .code (c :: s) = blocksFrom (line + lineFeeds [c]) .code s := by
  rw [lineFeeds_cons]
  by_cases hfeed : c = '\n'
  · subst hfeed
    rfl
  · rw [blocksFrom, if_neg hquote, if_neg hfeed]
    · rfl
    · exact hfeed
    · rintro t rfl rfl
      exact (hslash rfl '/' rfl).1 rfl
    · rintro t rfl rfl
      exact (hslash rfl '*' rfl).2 rfl

theorem blocksFrom_opening (line : Nat) (s : List Char) :
    blocksFrom line .code ('/' :: '*' :: s) = blocksFrom line (.body line []) s :=
  rfl

theorem blocksFrom_lineComment_cons (c : Char) (s : List Char) (line : Nat) :
    blocksFrom line .lineComment (c :: s)
      = if c = '\n' then blocksFrom (line + 1) .code s else blocksFrom line .lineComment s :=
  rfl

theorem blocksFrom_literal_cons (hescape : c ≠ '\\') (line : Nat) :
    blocksFrom line (.literal quote) (c :: s)
      = if c = '\n' then blocksFrom (line + 1) .code s
        else blocksFrom line (if c = quote then .code else .literal quote) s := by
  rw [blocksFrom]
  exact fun _ _ heq => absurd heq hescape

theorem blocksFrom_literal_escape (quote c : Char) (s : List Char) (line : Nat) :
    blocksFrom line (.literal quote) ('\\' :: c :: s)
      = if c = '\n' then blocksFrom (line + 1) .code s else blocksFrom line (.literal quote) s :=
  rfl

/-- A character of a body, which the comment is not closed in front of. -/
theorem blocksFrom_body_cons (hclose : ¬ ['*', '/'] <+: c :: s) (line opened : Nat)
    (backwards : List Char) :
    blocksFrom line (.body opened backwards) (c :: s)
      = blocksFrom (line + lineFeeds [c]) (.body opened (c :: backwards)) s := by
  rw [blocksFrom, lineFeeds_cons]
  · by_cases hfeed : c = '\n' <;> simp [hfeed, lineFeeds]
  · rintro t rfl rfl
    exact hclose (List.prefix_append ['*', '/'] t)

/-! ### What is passed over -/

/-- What stands at one place in a literal: a character that neither ends it nor escapes another one,
or a backslash with the character that it escapes. -/
inductive LiteralItem (quote : Char)
  | plain (c : Char) (hquote : c ≠ quote) (hescape : c ≠ '\\') (hfeed : c ≠ '\n')
  | escaped (c : Char) (hfeed : c ≠ '\n')

def LiteralItem.text {quote : Char} : LiteralItem quote → List Char
  | plain c .. => [c]
  | escaped c _ => ['\\', c]

/-- The end of a literal: a quote, or the end of the line, with or without a backslash before it. -/
inductive EndsLiteral (quote : Char) : (ending next : List Char) → Prop
  | quote (next : List Char) : EndsLiteral quote [quote] next
  | line {ending next : List Char} (hending : EndsLine ending next) : EndsLiteral quote ending next
  | escape {ending next : List Char} (hending : EndsLine ending next) :
      EndsLiteral quote ('\\' :: ending) next

/-- What a scan for block comments passes over at one place, in front of the rest of a source. -/
inductive Passed : (piece next : List Char) → Prop
  /-- A character that opens nothing. -/
  | plain {c : Char} {next : List Char} (hquote : ¬ (c = '"' ∨ c = '\''))
      (hslash : c = '/' → ∀ d ∈ next.head?, d ≠ '/' ∧ d ≠ '*') : Passed [c] next
  /-- Two slashes and the rest of their line. -/
  | lineComment {s ending next : List Char} (hs : '\n' ∉ s) (hending : EndsLine ending next) :
      Passed ('/' :: '/' :: (s ++ ending)) next
  | literal {quote : Char} {ending next : List Char} (hquote : quote = '"' ∨ quote = '\'')
      (items : List (LiteralItem quote)) (hending : EndsLiteral quote ending next) :
      Passed (quote :: (items.flatMap LiteralItem.text ++ ending)) next

theorem Passed.ne_nil (h : Passed piece next) : piece ≠ [] := by
  cases h <;> exact List.cons_ne_nil _ _

/-! ### Passing over it -/

theorem blocksFrom_lineComment (h : '\n' ∉ s) (hending : EndsLine ending next) (line : Nat) :
    blocksFrom line .lineComment (s ++ (ending ++ next))
      = blocksFrom (line + lineFeeds ending) .code next := by
  induction s with
  | nil =>
      cases hending with
      | feed next => rfl
      | stop => rfl
  | cons c s ih =>
      rw [List.mem_cons, not_or] at h
      obtain ⟨hc, hs⟩ := h
      rw [List.cons_append, blocksFrom_lineComment_cons, if_neg (Ne.symm hc), ih hs]

theorem blocksFrom_items (items : List (LiteralItem quote)) (line : Nat) (rest : List Char) :
    blocksFrom line (.literal quote) (items.flatMap LiteralItem.text ++ rest)
      = blocksFrom line (.literal quote) rest := by
  induction items with
  | nil => rfl
  | cons item items ih =>
      rw [List.flatMap_cons, List.append_assoc]
      cases item with
      | plain c hends hescape hfeed =>
          rw [LiteralItem.text, List.singleton_append, blocksFrom_literal_cons hescape,
            if_neg hfeed, if_neg hends, ih]
      | escaped c hfeed =>
          rw [LiteralItem.text, List.cons_append, List.singleton_append, blocksFrom_literal_escape,
            if_neg hfeed, ih]

theorem blocksFrom_endsLiteral (hfeed : quote ≠ '\n') (hescape : quote ≠ '\\')
    (h : EndsLiteral quote ending next) (line : Nat) :
    blocksFrom line (.literal quote) (ending ++ next)
      = blocksFrom (line + lineFeeds ending) .code next := by
  cases h with
  | quote next =>
      rw [List.singleton_append, blocksFrom_literal_cons hescape, if_neg hfeed, if_pos rfl,
        lineFeeds_cons, if_neg hfeed]
      rfl
  | line hending =>
      cases hending with
      | feed next => rfl
      | stop => rfl
  | escape hending =>
      cases hending with
      | feed next => rfl
      | stop =>
          -- The backslash is the last character, so it is read as one that escapes nothing.
          have hlast : blocksFrom line (.literal quote) ['\\']
              = blocksFrom line (if '\\' = quote then .code else .literal quote) [] := rfl
          rw [List.append_nil, hlast, if_neg (Ne.symm hescape)]
          rfl

theorem lineFeeds_items (items : List (LiteralItem quote)) :
    lineFeeds (items.flatMap LiteralItem.text) = 0 := by
  apply lineFeeds_of_notMem
  rw [List.mem_flatMap]
  rintro ⟨item, -, hmem⟩
  cases item with
  | plain c _ _ hfeed => exact hfeed (List.mem_singleton.mp hmem).symm
  | escaped c hfeed =>
      rcases List.mem_pair.mp hmem with heq | heq
      · exact absurd heq (by decide)
      · exact hfeed heq.symm

theorem blocksFrom_quote (hquote : quote = '"' ∨ quote = '\'') (line : Nat) (rest : List Char) :
    blocksFrom line .code (quote :: rest) = blocksFrom line (.literal quote) rest := by
  rcases hquote with rfl | rfl <;> rfl

/-- Behind what is passed over the scan is in code, on the line that it ends on. -/
theorem blocksFrom_passed (h : Passed piece next) (line : Nat) :
    blocksFrom line .code (piece ++ next) = blocksFrom (line + lineFeeds piece) .code next := by
  cases h with
  | @plain c next hquote hslash =>
      exact blocksFrom_code_cons hquote hslash line
  | @lineComment s ending next hs hending =>
      have hfeeds : lineFeeds ('/' :: '/' :: (s ++ ending)) = lineFeeds ending := by
        rw [lineFeeds_cons, lineFeeds_cons, lineFeeds_append, lineFeeds_of_notMem hs]
        simp
      rw [hfeeds, List.cons_append, List.cons_append, List.append_assoc]
      exact blocksFrom_lineComment hs hending line
  | @literal quote ending next hquote items hending =>
      have hfeed : quote ≠ '\n' := by rcases hquote with rfl | rfl <;> decide
      have hescape : quote ≠ '\\' := by rcases hquote with rfl | rfl <;> decide
      have hfeeds : lineFeeds (quote :: (items.flatMap LiteralItem.text ++ ending))
          = lineFeeds ending := by
        rw [lineFeeds_cons, if_neg hfeed, lineFeeds_append, lineFeeds_items, Nat.zero_add,
          Nat.zero_add]
      rw [hfeeds, List.cons_append, blocksFrom_quote hquote, List.append_assoc, blocksFrom_items,
        blocksFrom_endsLiteral hfeed hescape hending]

/-! ### There is always something -/

/-- A literal ends somewhere. -/
theorem exists_items (quote : Char) (s : List Char) :
    ∃ (items : List (LiteralItem quote)) (ending next : List Char),
      s = items.flatMap LiteralItem.text ++ (ending ++ next) ∧ EndsLiteral quote ending next := by
  obtain ⟨n, hn⟩ : ∃ n, s.length = n := ⟨_, rfl⟩
  induction n using Nat.strong_induction_on generalizing s with
  | _ n ih =>
      have hitem (item : LiteralItem quote) (s : List Char) (hlength : s.length < n) :
          ∃ (items : List (LiteralItem quote)) (ending next : List Char),
            item.text ++ s = items.flatMap LiteralItem.text ++ (ending ++ next) ∧
              EndsLiteral quote ending next := by
        obtain ⟨items, ending, next, rfl, hending⟩ := ih s.length hlength s rfl
        exact ⟨item :: items, ending, next, by rw [List.flatMap_cons, List.append_assoc], hending⟩
      cases s with
      | nil => exact ⟨[], [], [], rfl, .line .stop⟩
      | cons c s =>
          rw [List.length_cons] at hn
          by_cases hescape : c = '\\'
          · subst hescape
            cases s with
            | nil => exact ⟨[], ['\\'], [], rfl, .escape .stop⟩
            | cons d s =>
                rw [List.length_cons] at hn
                by_cases hfeed : d = '\n'
                · subst hfeed
                  exact ⟨[], ['\\', '\n'], s, rfl, .escape (.feed s)⟩
                · exact hitem (.escaped d hfeed) s (by omega)
          · by_cases hquote : c = quote
            · subst hquote
              exact ⟨[], [c], s, rfl, .quote s⟩
            · by_cases hfeed : c = '\n'
              · subst hfeed
                exact ⟨[], ['\n'], s, rfl, .line (.feed s)⟩
              · exact hitem (.plain c hquote hescape hfeed) s (by omega)

/-- Where no comment opens there is something to pass over. -/
theorem exists_passed (c : Char) (s : List Char) (h : ¬ ['/', '*'] <+: c :: s) :
    ∃ piece next, c :: s = piece ++ next ∧ Passed piece next := by
  by_cases hquote : c = '"' ∨ c = '\''
  · obtain ⟨items, ending, next, rfl, hending⟩ := exists_items c s
    exact ⟨_, next, by simp, .literal hquote items hending⟩
  · by_cases hline : ['/', '/'] <+: c :: s
    · obtain ⟨rest, hrest⟩ := hline
      obtain ⟨line, ending, next, rfl, hline, hending⟩ := exists_endsLine rest
      exact ⟨_, next, by simp [← hrest], .lineComment hline hending⟩
    · refine ⟨[c], s, rfl, .plain hquote ?_⟩
      rintro rfl d hd
      obtain ⟨rest, rfl⟩ := List.head?_eq_some_iff.mp hd
      constructor
      · rintro rfl
        exact hline (List.prefix_append ['/', '/'] rest)
      · rintro rfl
        exact h (List.prefix_append ['/', '*'] rest)

/-! ### Comments -/

theorem blocksFrom_body (h : ¬ ['*', '/'] <:+: body) (line opened : Nat)
    (backwards rest : List Char) :
    blocksFrom line (.body opened backwards) (body ++ '*' :: '/' :: rest)
      = blockComment opened (body.reverse ++ backwards)
        :: blocksFrom (line + lineFeeds body) .code rest := by
  induction body generalizing line backwards with
  | nil => rfl
  | cons c body ih =>
      have hinner : ¬ ['*', '/'] <:+: body := fun hinfix => h (List.infix_cons hinfix)
      have hclose : ¬ ['*', '/'] <+: c :: (body ++ '*' :: '/' :: rest) := by
        rintro ⟨t, heq⟩
        obtain ⟨rfl, htail⟩ := List.cons.inj heq
        cases body with
        | nil => exact absurd (List.cons.inj htail).1 (by decide)
        | cons d body =>
            obtain ⟨rfl, -⟩ := List.cons.inj htail
            exact h (List.prefix_append ['*', '/'] body).isInfix
      rw [List.cons_append, blocksFrom_body_cons hclose, ih hinner, List.reverse_cons,
        List.append_assoc, List.singleton_append, Nat.add_assoc, ← lineFeeds_append,
        List.singleton_append]

/-- A body that is not closed goes on to the end of the source. -/
theorem blocksFrom_body_unclosed (h : ¬ ['*', '/'] <:+: body) (line opened : Nat)
    (backwards : List Char) :
    blocksFrom line (.body opened backwards) body
      = [blockComment opened (body.reverse ++ backwards)] := by
  induction body generalizing line backwards with
  | nil => rfl
  | cons c body ih =>
      have hinner : ¬ ['*', '/'] <:+: body := fun hinfix => h (List.infix_cons hinfix)
      have hclose : ¬ ['*', '/'] <+: c :: body := fun hprefix => h hprefix.isInfix
      rw [blocksFrom_body_cons hclose, ih hinner, List.reverse_cons, List.append_assoc,
        List.singleton_append]

end TestSelection.Comment
