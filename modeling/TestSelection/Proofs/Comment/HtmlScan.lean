import Mathlib.Data.List.Infix
import TestSelection.Comment.Html
import TestSelection.Proofs.Comment.BlockScan

/-!
The scan for HTML comments, from one place outside of comments to the next. It counts the line feeds
of what it passes over, and of the body of a comment up to its closing.
-/

namespace TestSelection.Comment

variable {c : Char} {s body : List Char}

def htmlOpening : List Char := ['<', '!', '-', '-']

def htmlClosing : List Char := ['-', '-', '>']

theorem htmlFrom_cons (h : ¬ htmlOpening <+: c :: s) (line : Nat) :
    htmlFrom line none (c :: s) = htmlFrom (line + lineFeeds [c]) none s := by
  rw [htmlFrom, lineFeeds_cons]
  · by_cases hfeed : c = '\n' <;> simp [hfeed, lineFeeds]
  · rintro t rfl rfl
    exact h (List.prefix_append htmlOpening t)

/-- A character of a body, which the comment is not closed in front of. -/
theorem htmlFrom_body_cons (hclose : ¬ htmlClosing <+: c :: s) (line opened : Nat)
    (backwards : List Char) :
    htmlFrom line (some (opened, backwards)) (c :: s)
      = htmlFrom (line + lineFeeds [c]) (some (opened, c :: backwards)) s := by
  rw [htmlFrom, lineFeeds_cons]
  · by_cases hfeed : c = '\n' <;> simp [hfeed, lineFeeds]
  · rintro t rfl rfl
    exact hclose (List.prefix_append htmlClosing t)

theorem htmlFrom_body (h : ¬ htmlClosing <:+: body) (line opened : Nat)
    (backwards rest : List Char) :
    htmlFrom line (some (opened, backwards)) (body ++ '-' :: '-' :: '>' :: rest)
      = htmlComment opened (body.reverse ++ backwards)
        :: htmlFrom (line + lineFeeds body) none rest := by
  induction body generalizing line backwards with
  | nil => rfl
  | cons c body ih =>
      have hinner : ¬ htmlClosing <:+: body := fun hinfix => h (List.infix_cons hinfix)
      have hclose : ¬ htmlClosing <+: c :: (body ++ '-' :: '-' :: '>' :: rest) := by
        rintro ⟨t, heq⟩
        match body with
        | [] => simp [htmlClosing] at heq
        | [d] => simp [htmlClosing] at heq
        | d :: e :: body =>
            simp only [htmlClosing, List.cons_append, List.cons.injEq] at heq
            obtain ⟨rfl, rfl, rfl, -⟩ := heq
            exact h (List.prefix_append htmlClosing body).isInfix
      rw [List.cons_append, htmlFrom_body_cons hclose, ih hinner, List.reverse_cons,
        List.append_assoc, List.singleton_append, Nat.add_assoc, ← lineFeeds_append,
        List.singleton_append]

theorem htmlFrom_body_unclosed (h : ¬ htmlClosing <:+: body) (line opened : Nat)
    (backwards : List Char) :
    htmlFrom line (some (opened, backwards)) body
      = [htmlComment opened (body.reverse ++ backwards)] := by
  induction body generalizing line backwards with
  | nil => rfl
  | cons c body ih =>
      have hinner : ¬ htmlClosing <:+: body := fun hinfix => h (List.infix_cons hinfix)
      have hclose : ¬ htmlClosing <+: c :: body := fun hprefix => h hprefix.isInfix
      rw [htmlFrom_body_cons hclose, ih hinner, List.reverse_cons, List.append_assoc,
        List.singleton_append]

end TestSelection.Comment
