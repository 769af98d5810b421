import TestSelection.Proofs.Expr.Spelling
import TestSelection.Proofs.Letters
import TestSelection.Proofs.Squeezing
import TestSelection.Tag.Entry

/-!
Requirements on one line. Outside quoted texts blanks only stand between tokens, where one is as
good as many; inside a quoted text they are a part of it. So the value of a tag on one line has the
tokens and the tree of the value, with the quoted texts squeezed, and it is the same tree exactly if
all quoted texts are evenly spaced.
-/

namespace TestSelection

open Chars

/-! ### Tokens -/

namespace Token

/-- A token whose quoted text is squeezed. -/
def squeezed : Token → Token
  | text t => text (Text.squeeze t)
  | token => token

variable {token : Token} {s t : List Char} {c : Char}

theorem isBlank_of_isGap (hc : isGap c = true) : isBlank c = true := by
  rcases isGap_iff.mp hc with rfl | rfl | rfl | rfl <;> decide

theorem isBlank_of_continuesName (hc : continuesName c = true) : isBlank c = false := by
  rcases Bool.or_eq_true_iff.mp hc with hword | hpoint
  · exact isBlank_of_isWordChar hword
  · obtain rfl := beq_iff_eq.mp hpoint
    decide

theorem goesOn_squeezed (token : Token) (c : Char) :
    token.squeezed.goesOn c = token.goesOn c := by
  cases token <;> rfl

theorem goesOn_blank (token : Token) : token.goesOn ' ' = false := by
  cases token with
  | operator op => cases op <;> rfl
  | name | number | text | bang | openParen | closeParen => rfl

theorem spellable_squeezed (h : token.Spellable) : token.squeezed.Spellable := by
  cases token <;> exact h

theorem Quoted.getLast?_eq (h : Quoted s t) : s.getLast? = some '"' := by
  induction h with
  | close => rfl
  | @escape c s t _ h ih | @plain c s t _ _ h ih =>
      obtain ⟨d, s, rfl⟩ := List.exists_cons_of_ne_nil h.ne_nil
      exact ih

/-- A quoted text starts with a blank exactly if its content does. -/
theorem Quoted.any_isBlank_head? (h : Quoted s t) :
    s.head?.any isBlank = t.head?.any isBlank := by
  cases h with
  | close => rfl
  | escape hc => rcases hc with rfl | rfl <;> rfl
  | plain => rfl

theorem Quoted.squeeze (h : Quoted s t) : Quoted (squeeze s) (squeeze t) := by
  induction h with
  | close => exact .close
  | @escape c s t hc _ ih =>
      have hblank : isBlank c = false := by rcases hc with rfl | rfl <;> rfl
      rw [squeeze_cons_of_not rfl, squeeze_cons_of_not hblank, squeeze_cons_of_not hblank]
      exact .escape hc ih
  | @plain c s t hquote hescape h ih =>
      rw [Chars.squeeze, Chars.squeeze, h.any_isBlank_head?]
      split
      · split
        · exact ih
        · exact .plain (by decide) (fun heq => absurd heq (by decide)) ih
      · refine .plain hquote (fun hc d hd => ?_) ih
        rw [head?_squeeze] at hd
        obtain ⟨e, he, rfl⟩ := Option.map_eq_some_iff.mp hd
        split
        · decide
        · exact hescape hc e he

/-- The source of a token has no blanks, or it is that of a quoted text. -/
theorem Source.cases (hspell : token.Spellable) (h : token.Source s) :
    token.squeezed = token ∧ (∀ c ∈ s, isBlank c = false) ∨
      ∃ content inner, token = .text content ∧ s = '"' :: inner ∧
        Quoted inner content.toList := by
  cases token with
  | text content =>
      obtain ⟨inner, rfl, hinner⟩ := h
      exact Or.inr ⟨content, inner, rfl, rfl, hinner⟩
  | name raw =>
      obtain rfl : s = raw.toList := h
      exact Or.inl ⟨rfl, fun c hc => isBlank_of_continuesName
        (continuesName_of_spellable (Or.inl hspell) c hc)⟩
  | number raw =>
      obtain rfl : s = raw.toList := h
      exact Or.inl ⟨rfl, fun c hc => isBlank_of_continuesName
        (continuesName_of_spellable (Or.inr hspell) c hc)⟩
  | bang | openParen | closeParen =>
      obtain rfl : s = [_] := h
      exact Or.inl ⟨rfl, List.forall_mem_singleton.mpr rfl⟩
  | operator op =>
      obtain rfl : s = op.symbol.toList := h
      have hany : op.symbol.toList.any isBlank = false := by cases op <;> rfl
      exact Or.inl ⟨rfl, by simpa using hany⟩

/-- The squeezed source of a token is the source of the squeezed token. -/
theorem Source.squeeze (hspell : token.Spellable) (h : token.Source s) :
    token.squeezed.Source (Chars.squeeze s) := by
  rcases h.cases hspell with ⟨htoken, hs⟩ | ⟨content, inner, rfl, rfl, hinner⟩
  · rwa [htoken, squeeze_eq_self_of_no_blank hs]
  · rw [squeeze_cons_of_not rfl]
    refine ⟨Chars.squeeze inner, rfl, ?_⟩
    rw [Text.squeeze, String.toList_ofList]
    exact hinner.squeeze

/-- The source of a token neither starts nor ends with a blank. -/
theorem Source.ends (hspell : token.Spellable) (h : token.Source s) :
    (∀ c ∈ s.head?, isBlank c = false) ∧ ∀ c ∈ s.getLast?, isBlank c = false := by
  rcases h.cases hspell with ⟨-, hs⟩ | ⟨content, inner, rfl, rfl, hinner⟩
  · exact ⟨fun c hc => hs c (List.mem_of_mem_head? hc),
      fun c hc => hs c (List.mem_of_mem_getLast? hc)⟩
  · obtain ⟨d, rest, rfl⟩ := List.exists_cons_of_ne_nil hinner.ne_nil
    rw [List.getLast?_cons_cons, hinner.getLast?_eq]
    exact ⟨by rintro _ ⟨⟩; rfl, by rintro _ ⟨⟩; rfl⟩

end Token

/-! ### Texts -/

namespace LocatedToken

variable {p : Nat} {s : List Char} {tokens : List LocatedToken}

/-- A located token whose quoted text is squeezed. -/
def squeezed (t : LocatedToken) : LocatedToken := ⟨t.token.squeezed, t.position⟩

theorem Tiles.exists_trimStart (h : Tiles p s tokens) : ∃ q, Tiles q (trimStart s) tokens := by
  induction h with
  | nil => exact ⟨0, .nil⟩
  | gap hgap _ ih =>
      rw [trimStart, List.dropWhile_cons_of_pos (Token.isBlank_of_isGap hgap)]
      exact ih
  | @tile p t source rest tokens hspell hsource hrest h _ =>
      obtain ⟨c, more, rfl, -⟩ := hsource.exists_cons hspell
      have hc : isBlank c = false := (hsource.ends hspell).1 c rfl
      refine ⟨p, ?_⟩
      rw [List.cons_append, trimStart, List.dropWhile_cons_of_neg (by simp [hc])]
      exact .tile hspell hsource hrest h

theorem Tiles.trimEnd (h : Tiles p s tokens) : Tiles p (trimEnd s) tokens := by
  induction h with
  | nil => exact .nil
  | @gap p c s tokens hgap _ ih =>
      rw [trimEnd_cons]
      split
      · rename_i hnil
        rw [hnil.1] at ih
        obtain rfl := Except.ok.inj (readAll_of_tiles ih)
        exact .nil
      · exact .gap hgap ih
  | @tile p t source rest tokens hspell hsource hrest _ ih =>
      obtain ⟨c, more, rfl, -⟩ := hsource.exists_cons hspell
      rw [trimEnd_append (List.cons_ne_nil c more) (hsource.ends hspell).2]
      refine .tile hspell hsource (fun d hd => hrest d ?_) ih
      obtain ⟨dropped, hdropped⟩ := isPrefix_trimEnd rest
      rw [← hdropped, List.head?_append, Option.mem_def.mp hd]
      rfl

theorem Tiles.exists_squeeze (h : Tiles p s tokens) (q : Nat) :
    ∃ located, Tiles q (squeeze s) located ∧
      located.map LocatedToken.token = (tokens.map squeezed).map LocatedToken.token := by
  induction h generalizing q with
  | nil => exact ⟨[], .nil, rfl⟩
  | @gap p c s tokens hgap _ ih =>
      rw [squeeze, if_pos (Token.isBlank_of_isGap hgap)]
      split
      · exact ih q
      · obtain ⟨located, hlocated, htokens⟩ := ih (q + ' '.utf8Size)
        exact ⟨located, .gap rfl hlocated, htokens⟩
  | @tile p t source rest tokens hspell hsource hrest _ ih =>
      obtain ⟨located, hlocated, htokens⟩ := ih (q + byteSize (squeeze source))
      rw [squeeze_append (hsource.ends hspell).2]
      refine ⟨⟨t.squeezed, q⟩ :: located, .tile (Token.spellable_squeezed hspell)
        (hsource.squeeze hspell) (fun c hc => ?_) hlocated, congrArg (t.squeezed :: ·) htokens⟩
      rw [head?_squeeze] at hc
      obtain ⟨d, hd, rfl⟩ := Option.map_eq_some_iff.mp hc
      rw [Token.goesOn_squeezed]
      split
      · exact Token.goesOn_blank t
      · exact hrest d hd

end LocatedToken

/-- A text on one line has the tokens of the text, with their quoted texts squeezed. -/
theorem Token.Lexes.fold {text : String} {tokens : List LocatedToken}
    (h : Lexes text.toList (tokens.map LocatedToken.token)) :
    Lexes (Text.fold text).toList ((tokens.map LocatedToken.squeezed).map LocatedToken.token) := by
  intro q
  obtain ⟨located, hread, htokens⟩ := h 0
  obtain ⟨start, hstart⟩ := (LocatedToken.tiles_of_readAll hread).exists_trimStart
  obtain ⟨moved, hmoved, heq⟩ := hstart.trimEnd.exists_squeeze q
  refine ⟨moved, ?_, ?_⟩
  · rw [Text.toList_fold]
    exact LocatedToken.readAll_of_tiles hmoved
  · have hsqueezed := congrArg (List.map Token.squeezed) htokens
    simp only [List.map_map] at heq hsqueezed ⊢
    exact heq.trans hsqueezed

/-! ### Trees -/

namespace Expr

/-- The quoted texts of an expression, their escapes resolved. -/
def texts : Expr → List String
  | text t => [t]
  | name _ | number _ | bool _ => []
  | not e | neg e => e.texts
  | binary _ l r => l.texts ++ r.texts

/-- The tree with other quoted texts. -/
def mapTexts (f : String → String) : Expr → Expr
  | text t => text (f t)
  | not e => not (e.mapTexts f)
  | neg e => neg (e.mapTexts f)
  | binary op l r => binary op (l.mapTexts f) (r.mapTexts f)
  | e => e

variable {f g : String → String} {e : Expr}

theorem mapTexts_congr (h : ∀ t ∈ e.texts, f t = g t) : e.mapTexts f = e.mapTexts g := by
  induction e with
  | text t => rw [mapTexts, mapTexts, h t List.mem_cons_self]
  | name | number | bool => rfl
  | not e ih | neg e ih => rw [mapTexts, mapTexts, ih h]
  | binary op l r ihl ihr =>
      obtain ⟨hl, hr⟩ := List.forall_mem_append.mp h
      rw [mapTexts, mapTexts, ihl hl, ihr hr]

theorem mapTexts_eq_self_iff : e.mapTexts f = e ↔ ∀ t ∈ e.texts, f t = t := by
  induction e with
  | text t => rw [mapTexts, texts, List.forall_mem_singleton, Expr.text.injEq]
  | name | number | bool => exact iff_of_true rfl nofun
  | not e ih => rw [mapTexts, texts, ← ih, Expr.not.injEq]
  | neg e ih => rw [mapTexts, texts, ← ih, Expr.neg.injEq]
  | binary op l r ihl ihr =>
      rw [mapTexts, texts, List.forall_mem_append, ← ihl, ← ihr, Expr.binary.injEq,
        and_iff_right rfl]

theorem Leaf.squeezed {t : Token} (h : Leaf t e) :
    Leaf t.squeezed (e.mapTexts Text.squeeze) := by
  cases h with
  | name hend hpair htrue hfalse => exact .name hend hpair htrue hfalse
  | bool b => exact .bool b
  | number h => exact .number h
  | text t => exact .text (Text.squeeze t)

/-- The tokens with squeezed texts have the tree with squeezed texts. -/
theorem Derives.squeezed {s : Symbol} {ts : List EnclosedToken} (h : Derives s ts e) :
    Derives s (ts.map fun t => (t.1.squeezed, t.2)) (e.mapTexts Text.squeeze) := by
  have henclose : ∀ ts : List EnclosedToken, (enclose ts).map (fun t => (t.1.squeezed, t.2))
      = enclose (ts.map fun t => (t.1.squeezed, t.2)) := by
    intro ts
    simp [enclose]
  induction h with
  | leaf h => exact .leaf h.squeezed
  | paren _ ih =>
      rw [List.map_append, List.map_cons, henclose]
      exact .paren ih
  | primary _ ih => exact .primary ih
  | not _ ih =>
      rw [List.map_cons, henclose]
      exact .not ih
  | neg _ ih =>
      rw [List.map_cons, henclose]
      exact .neg ih
  | operand _ ih => exact .operand ih
  | binary _ _ ihl ihr =>
      rw [List.map_append, List.map_cons]
      exact .binary ihl ihr

theorem Phrase.squeezed {depth : Nat} {s : Symbol} {tokens : List LocatedToken}
    (h : Phrase depth s tokens e) :
    Phrase depth s (tokens.map LocatedToken.squeezed) (e.mapTexts Text.squeeze) := by
  obtain ⟨ts, htokens, hderives, hdepth⟩ := h
  refine ⟨_, ?_, hderives.squeezed, ?_⟩
  · have hsqueezed := congrArg (List.map Token.squeezed) htokens
    rw [List.map_map, List.map_map] at hsqueezed ⊢
    exact hsqueezed.trans (List.map_map.symm ▸ rfl)
  · intro t ht
    obtain ⟨u, hu, rfl⟩ := List.mem_map.mp ht
    exact hdepth u hu

theorem parse_fold {text : String} (h : parse text = .ok e) :
    parse (Text.fold text) = .ok (e.mapTexts Text.squeeze) := by
  obtain ⟨hsize, tokens, hlexes, hphrase⟩ := parse_eq_ok_iff_spells.mp h
  exact parse_eq_ok_iff_spells.mpr ⟨(Text.utf8ByteSize_fold_le text).trans hsize,
    tokens.map LocatedToken.squeezed, hlexes.fold, hphrase.squeezed⟩

end Expr

/-- A value that can be read can be read on one line. If the quoted texts in it are evenly spaced
but for line breaks, the tree has blanks there in the place of line breaks, and it is the same one
exactly if there are no line breaks in quoted texts. -/
theorem TagEntry.parse_flat {entry : TagEntry} {e : Expr} (h : Expr.parse entry.value = .ok e)
    (hspaced : ∀ t ∈ e.texts, EvenlySpaced (Text.swap '\n' ' ' t).toList) :
    Expr.parse entry.flat = .ok (e.mapTexts (Text.swap '\n' ' ')) ∧
      (Expr.parse entry.flat = .ok e ↔ ∀ t ∈ e.texts, '\n' ∉ t.toList) := by
  have hflat : Expr.parse entry.flat = .ok (e.mapTexts (Text.swap '\n' ' ')) := by
    rw [← Expr.mapTexts_congr fun t ht => Text.squeeze_eq_swap (hspaced t ht)]
    exact Expr.parse_fold h
  refine ⟨hflat, ?_⟩
  rw [hflat, Except.ok.injEq, Expr.mapTexts_eq_self_iff]
  simp only [Text.swap_eq_self_iff (by decide : '\n' ≠ ' ')]

/-- Blanks and line breaks between tokens do not matter. -/
theorem TagEntry.parse_flat_lines :
    let entry : TagEntry := ⟨"requires", "os.version  ==\n\"A B\"\t| false", 2⟩
    let e : Expr := .binary .or (.binary .eq (.name "os.version") (.text "A B")) (.bool false)
    Expr.parse entry.value = .ok e ∧
      (∀ t ∈ e.texts, EvenlySpaced (Text.swap '\n' ' ' t).toList) ∧
      Expr.parse entry.flat = .ok e := by
  intro entry e
  have hvalue : Expr.parse entry.value = .ok e := by decide +kernel
  have hspaced : ∀ t ∈ e.texts, EvenlySpaced (Text.swap '\n' ' ' t).toList := by
    refine List.forall_mem_singleton.mpr (squeeze_eq_self_iff.mp ?_)
    decide +kernel
  have hbreaks : ∀ t ∈ e.texts, '\n' ∉ t.toList := by decide +kernel
  exact ⟨hvalue, hspaced, (parse_flat hvalue hspaced).2.mpr hbreaks⟩

/-- A quoted text that goes over two lines has a blank between them on one line. -/
theorem TagEntry.not_parse_flat_brokenText :
    let entry : TagEntry := ⟨"requires", "os.version == \"A\nB\"", 2⟩
    let e : Expr := .binary .eq (.name "os.version") (.text "A\nB")
    Expr.parse entry.value = .ok e ∧
      Expr.parse entry.flat = .ok (.binary .eq (.name "os.version") (.text "A B")) ∧
      Expr.parse entry.flat ≠ .ok e := by
  intro entry e
  exact ⟨by decide +kernel, by decide +kernel, by decide +kernel⟩

end TestSelection
