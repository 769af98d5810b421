import TestSelection.Proofs.Expr.Sources

/-!
Tokens without their places. Reading a text gives the same tokens wherever the text starts, and it
gives the tokens of two texts one after the other if the second text starts with a character that no
token can go on with.
-/

namespace TestSelection

namespace Token

/-- A text does not start with a character that could belong to a token in front of it. -/
def Breaks (s : List Char) : Prop :=
  ∀ c ∈ s.head?, c ≠ '=' ∧ continuesName c = false ∧ continuesNumber c = false

theorem breaks_cons {c : Char} (s : List Char) (h : c ≠ '=') (hname : continuesName c = false)
    (hnumber : continuesNumber c = false) : Breaks (c :: s) := by
  rintro _ ⟨⟩
  exact ⟨h, hname, hnumber⟩

variable {s t : List Char} {position : Nat} {token : Token} {c : Char}

theorem Breaks.goesOn (h : Breaks s) (token : Token) : ∀ c ∈ s.head?, token.goesOn c = false := by
  intro c hc
  obtain ⟨hequals, hname, hnumber⟩ := h c hc
  cases token with
  | name raw => exact hname
  | number raw => exact hnumber
  | bang => exact beq_eq_false_iff_ne.mpr hequals
  | text | openParen | closeParen => rfl
  | operator op => cases op <;> first | rfl | exact beq_eq_false_iff_ne.mpr hequals

/-- A text has the given tokens, wherever it starts. -/
def Lexes (s : List Char) (tokens : List Token) : Prop :=
  ∀ position, ∃ located, LocatedToken.readAll position 0 s = .ok located ∧
    located.map LocatedToken.token = tokens

theorem lexes_nil : Lexes [] [] := fun _ => ⟨[], rfl, rfl⟩

end Token

namespace LocatedToken

open Token

variable {s t : List Char} {p : Nat} {tokens others : List LocatedToken}

/-- The tokens of a text are followed by those of a text that breaks off its last token. -/
theorem Tiles.append (h : Tiles p s tokens) (hbreaks : Breaks t)
    (ht : Tiles (p + Chars.byteSize s) t others) : Tiles p (s ++ t) (tokens ++ others) := by
  induction h with
  | nil => exact ht
  | gap hgap _ ih =>
      rw [Chars.byteSize_cons, ← Nat.add_assoc] at ht
      exact .gap hgap (ih ht)
  | @tile p token source rest tokens hspell hsource hrest _ ih =>
      rw [Chars.byteSize_append, ← Nat.add_assoc] at ht
      rw [List.append_assoc]
      refine .tile hspell hsource (fun c hc => ?_) (ih ht)
      cases rest with
      | nil => exact hbreaks.goesOn token c hc
      | cons d rest => exact hrest c hc

/-- A text has the same tokens at any other place. -/
theorem Tiles.exists_move (h : Tiles p s tokens) (q : Nat) :
    ∃ moved, Tiles q s moved ∧ moved.map LocatedToken.token = tokens.map LocatedToken.token := by
  induction h generalizing q with
  | nil => exact ⟨[], .nil, rfl⟩
  | @gap p c s tokens hgap _ ih =>
      obtain ⟨moved, hmoved, htokens⟩ := ih (q + c.utf8Size)
      exact ⟨moved, .gap hgap hmoved, htokens⟩
  | @tile p token source rest tokens hspell hsource hrest _ ih =>
      obtain ⟨moved, hmoved, htokens⟩ := ih (q + Chars.byteSize source)
      exact ⟨⟨token, q⟩ :: moved, .tile hspell hsource hrest hmoved,
        congrArg (token :: ·) htokens⟩

end LocatedToken

namespace Token

variable {s t : List Char} {position : Nat} {token : Token} {c : Char}

theorem lexes_of_readAll {located : List LocatedToken}
    (h : LocatedToken.readAll position 0 s = .ok located) :
    Lexes s (located.map LocatedToken.token) := by
  intro other
  obtain ⟨moved, hmoved, htokens⟩ := (LocatedToken.tiles_of_readAll h).exists_move other
  exact ⟨moved, LocatedToken.readAll_of_tiles hmoved, htokens⟩

variable {ts us : List Token}

theorem Lexes.append (hs : Lexes s ts) (ht : Lexes t us) (hbreaks : Breaks t) :
    Lexes (s ++ t) (ts ++ us) := by
  intro position
  obtain ⟨located, hread, rfl⟩ := hs position
  obtain ⟨others, hothers, rfl⟩ := ht (position + Chars.byteSize s)
  have hboth := (LocatedToken.tiles_of_readAll hread).append hbreaks
    (LocatedToken.tiles_of_readAll hothers)
  exact ⟨located ++ others, LocatedToken.readAll_of_tiles hboth, List.map_append⟩

theorem Lexes.unique (h : Lexes s ts) (h' : Lexes s us) : ts = us := by
  obtain ⟨located, hread, rfl⟩ := h 0
  obtain ⟨located', hread', rfl⟩ := h' 0
  rw [Except.ok.inj (hread.symm.trans hread')]

theorem Lexes.gap (h : Lexes s ts) (hgap : isGap c = true) : Lexes (c :: s) ts := by
  intro position
  rw [LocatedToken.readAll, if_pos hgap]
  exact h _

/-- A token of one character. -/
theorem Lexes.cons (h : Lexes s ts) (hgap : isGap c = false)
    (hread : ∀ position, read position c s = .ok (token, 0)) : Lexes (c :: s) (token :: ts) := by
  intro position
  obtain ⟨located, hlocated, rfl⟩ := h (position + c.utf8Size)
  refine ⟨⟨token, position⟩ :: located, ?_, rfl⟩
  rw [LocatedToken.readAll, hgap, if_neg Bool.false_ne_true]
  exact bind_eq_ok.mpr ⟨_, hread position, bind_eq_ok.mpr ⟨located, hlocated, rfl⟩⟩

theorem Lexes.parens (h : Lexes s ts) :
    Lexes ('(' :: s ++ [')']) (.openParen :: ts ++ [.closeParen]) := by
  have hclose : Lexes [')'] [.closeParen] := lexes_nil.cons rfl fun _ => rfl
  have hbreaks : Breaks [')'] := breaks_cons [] (by decide) rfl rfl
  exact (h.append hclose hbreaks).cons rfl fun _ => rfl

theorem Lexes.ampersand (h : Lexes s ts) (h' : Lexes t us) :
    Lexes (s ++ ' ' :: '&' :: ' ' :: t) (ts ++ .operator .and :: us) := by
  have hspaced : Lexes (' ' :: t) us := h'.gap rfl
  have hafter : Lexes ('&' :: ' ' :: t) (.operator .and :: us) := hspaced.cons rfl fun _ => rfl
  exact h.append (hafter.gap rfl) (breaks_cons _ (by decide) rfl rfl)

end Token

end TestSelection
