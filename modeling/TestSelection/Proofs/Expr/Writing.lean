import TestSelection.Expr.Printer
import TestSelection.Proofs.Expr.Lexing

/-!
The tokens of a written text. A token that is read can be written, and what is written for it is
read as that token alone: a name or a number whose characters all belong to one token, a quoted text
with its escapes, or a sign. With a blank between any two of them, a list of tokens is read as that
list.
-/

namespace TestSelection

namespace Token

/-- The quoted form of a text ends with the closing quote and not before. -/
theorem quoted_escaped (t : List Char) : Quoted (t.flatMap escapedChar ++ ['"']) t := by
  induction t with
  | nil => exact .close
  | cons c t ih =>
      rw [List.flatMap_cons, List.append_assoc]
      by_cases hc : c = '"' ∨ c = '\\'
      · rw [escapedChar, if_pos hc]
        exact .escape hc ih
      · obtain ⟨hquote, hbackslash⟩ := not_or.mp hc
        rw [escapedChar, if_neg hc]
        exact .plain hquote (fun h => absurd h hbackslash) ih

theorem source_spelling (token : Token) : token.Source token.spelling := by
  cases token with
  | text t => exact ⟨_, rfl, quoted_escaped t.toList⟩
  | name | number | bang | openParen | closeParen | operator => rfl

/-- What is written for a token is read as that token alone. -/
theorem lexes_spelling {token : Token} (h : token.Spellable) : Lexes token.spelling [token] := by
  intro position
  have htiles : LocatedToken.Tiles position (token.spelling ++ []) [⟨token, position⟩] :=
    .tile h (source_spelling token) nofun .nil
  rw [List.append_nil] at htiles
  exact ⟨_, LocatedToken.readAll_of_tiles htiles, rfl⟩

/-- A token that is read can be written. -/
theorem spellable_of_readAll {position : Nat} {s : List Char} {located : List LocatedToken}
    (h : LocatedToken.readAll position 0 s = .ok located) : ∀ t ∈ located, t.token.Spellable := by
  have htiles := LocatedToken.tiles_of_readAll h
  clear h
  induction htiles with
  | nil => exact nofun
  | gap _ _ ih => exact ih
  | tile hspell _ _ _ ih => exact List.forall_mem_cons.mpr ⟨hspell, ih⟩

theorem lexes_spellings (tokens : List Token) (h : ∀ t ∈ tokens, t.Spellable) :
    Lexes ([' '].intercalate (tokens.map spelling)) tokens := by
  induction tokens with
  | nil => exact lexes_nil
  | cons t tokens ih =>
      obtain ⟨ht, htokens⟩ := List.forall_mem_cons.mp h
      cases tokens with
      | nil =>
          rw [List.map_singleton, List.intercalate_singleton]
          exact lexes_spelling ht
      | cons u tokens =>
          rw [List.map_cons, List.map_cons, List.intercalate_cons_cons, ← List.map_cons,
            List.append_assoc, List.singleton_append]
          have hspaced := (ih htokens).gap (c := ' ') rfl
          exact (lexes_spelling ht).append hspaced (breaks_cons _ (by decide) rfl rfl)

end Token

end TestSelection
