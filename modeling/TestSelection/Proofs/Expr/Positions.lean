import TestSelection.Proofs.Expr.Parsing
import TestSelection.Proofs.Expr.Sources

/-!
The places that errors speak of. An error of the lexer speaks of the character that it stands at. An
error of the parser speaks of the token that comes next, or of the end of the text: whatever a
parser has read, what it leaves are the last of the tokens that it was given. Since tokens keep the
places where their sources stand, each place is one between two characters, and what is shown
stands there.
-/

namespace TestSelection

/-! ### Places in a text -/

/-- A text stands in another one behind so many bytes. -/
def Text.StandsAt (text : String) (position : Nat) (part : String) : Prop :=
  ∃ before after, text = before ++ part ++ after ∧ before.utf8ByteSize = position

namespace Text

variable {text part : String} {position : Nat} {before source after : List Char}

theorem StandsAt.isValid (h : StandsAt text position part) :
    (⟨position⟩ : String.Pos.Raw).IsValid text := by
  obtain ⟨before, after, rfl, rfl⟩ := h
  rw [String.Pos.Raw.isValid_iff_exists_append]
  exact ⟨before, part ++ after, String.append_assoc, rfl⟩

theorem StandsAt.add_le (h : StandsAt text position part) :
    position + part.utf8ByteSize ≤ text.utf8ByteSize := by
  obtain ⟨before, after, rfl, rfl⟩ := h
  rw [String.utf8ByteSize_append, String.utf8ByteSize_append]
  exact Nat.le_add_right _ _

theorem StandsAt.position_lt (h : StandsAt text position part) (hpart : part ≠ "") :
    position < text.utf8ByteSize := by
  have hpos : 0 < part.utf8ByteSize :=
    Nat.pos_of_ne_zero fun hzero => hpart (String.utf8ByteSize_eq_zero_iff.mp hzero)
  exact Nat.lt_of_lt_of_le (Nat.lt_add_of_pos_right hpos) h.add_le

theorem standsAt_byteSize (h : text.toList = before ++ source ++ after) :
    StandsAt text (Chars.byteSize before) (String.ofList source) := by
  refine ⟨String.ofList before, String.ofList after, ?_, ?_⟩
  · rw [← String.ofList_append, ← String.ofList_append, ← h, String.ofList_toList]
  · rw [← Chars.byteSize_toList, String.toList_ofList]

theorem isValid_utf8ByteSize (text : String) :
    (⟨text.utf8ByteSize⟩ : String.Pos.Raw).IsValid text := by
  have hend : StandsAt text text.utf8ByteSize "" := ⟨text, "", by simp, rfl⟩
  exact hend.isValid

end Text

def SyntaxError.position? : SyntaxError → Option Nat
  | tooDeep position | unexpected _ _ position | unterminatedText position
  | invalidNumber _ position | trailing position => some position
  | empty | tooLarge _ | unknownName _ => none

/-- What an error says of a place holds of the text: the place is one between two characters of it
or at an end, and what is shown stands there. The end of the text is shown in words, and a quoted
text without its escapes. -/
structure SyntaxError.PointsInto (error : SyntaxError) (text : String) : Prop where
  isValid : ∀ p ∈ error.position?, (⟨p⟩ : String.Pos.Raw).IsValid text
  le_size : ∀ p ∈ error.position?, p ≤ text.utf8ByteSize
  invalidNumber : ∀ raw p, error = .invalidNumber raw p → Text.StandsAt text p raw
  unexpected : ∀ expected found p, error = .unexpected expected found p →
    found = "end of input" ∧ p = text.utf8ByteSize ∨
    found ≠ "end of input" ∧ p < text.utf8ByteSize ∧
      (Text.StandsAt text p found ∨ ∃ content source, found = (Token.text content).describe ∧
        (Token.text content).Source source ∧ Text.StandsAt text p (String.ofList source))

/-! ### Tokens -/

namespace LocatedToken

variable {p : Nat} {s : List Char} {tokens : List LocatedToken} {t : LocatedToken}
  {error : SyntaxError}

theorem Tiles.exists_source (h : Tiles p s tokens) (ht : t ∈ tokens) :
    ∃ before source after, s = before ++ source ++ after ∧
      p + Chars.byteSize before = t.position ∧ t.token.Spellable ∧ t.token.Source source := by
  induction h with
  | nil => exact nomatch ht
  | @gap p c s tokens _ _ ih =>
      obtain ⟨before, source, after, rfl, hbefore, hsource⟩ := ih ht
      refine ⟨c :: before, source, after, rfl, ?_, hsource⟩
      rw [Chars.byteSize_cons, ← Nat.add_assoc, hbefore]
  | @tile p token source rest tokens hspell hsource _ _ ih =>
      rcases List.mem_cons.mp ht with rfl | ht
      · exact ⟨[], source, rest, rfl, rfl, hspell, hsource⟩
      · obtain ⟨before, source', after, rfl, hbefore, hsource'⟩ := ih ht
        refine ⟨source ++ before, source', after, ?_, ?_, hsource'⟩
        · rw [List.append_assoc, List.append_assoc, List.append_assoc]
        · rw [Chars.byteSize_append, ← Nat.add_assoc, hbefore]

theorem Tiles.position_lt (h : Tiles p s tokens) :
    tokens.Pairwise fun t u => t.position < u.position := by
  induction h with
  | nil => exact .nil
  | gap _ _ ih => exact ih
  | @tile p token source rest tokens hspell hsource _ h ih =>
      refine List.pairwise_cons.mpr ⟨fun t ht => ?_, ih⟩
      obtain ⟨before, -, -, -, hbefore, -⟩ := h.exists_source ht
      obtain ⟨c, more, rfl, -⟩ := hsource.exists_cons hspell
      have hpos := Chars.byteSize_pos (List.cons_ne_nil c more)
      exact hbefore ▸ Nat.lt_of_lt_of_le (Nat.lt_add_of_pos_right hpos) (Nat.le_add_right _ _)

end LocatedToken

/-! ### Errors of the lexer -/

/-- No token can be read at a character. -/
theorem Token.read_eq_error {p : Nat} {c : Char} {s : List Char} {error : SyntaxError}
    (h : read p c s = .error error) :
    error = .unterminatedText p ∨
      ∃ expected, error = .unexpected expected (String.singleton c) p := by
  unfold read at h
  split at h
  case h_13 =>
      split at h
      · exact nomatch h
      · exact Or.inr ⟨.doubleEquals, (Except.error.inj h).symm⟩
  case h_14 =>
      split at h
      · exact nomatch h
      · exact Or.inl (Except.error.inj h).symm
  case h_15 =>
      dsimp only at h
      by_cases hdigit : c.isDigit = true
      · rw [if_pos hdigit] at h
        exact nomatch h
      · rw [if_neg hdigit] at h
        by_cases hname : startsName c = true
        · rw [if_pos hname] at h
          exact nomatch h
        · rw [if_neg hname] at h
          exact Or.inr ⟨.token, (Except.error.inj h).symm⟩
  all_goals exact nomatch h

/-- An error of the lexer speaks of a character of the text. -/
theorem LocatedToken.readAll_eq_error {p inside : Nat} {s : List Char} {error : SyntaxError}
    (h : readAll p inside s = .error error) :
    ∃ before c after, s = before ++ c :: after ∧
      (error = .unterminatedText (p + Chars.byteSize before) ∨
        ∃ expected, error =
          .unexpected expected (String.singleton c) (p + Chars.byteSize before)) := by
  induction s generalizing p inside with
  | nil => exact nomatch h
  | cons c s ih =>
      have hlater : ∀ {inside}, readAll (p + c.utf8Size) inside s = .error error →
          ∃ before d after, c :: s = before ++ d :: after ∧
            (error = .unterminatedText (p + Chars.byteSize before) ∨
              ∃ expected, error =
                .unexpected expected (String.singleton d) (p + Chars.byteSize before)) := by
        intro inside h
        obtain ⟨before, d, after, rfl, herror⟩ := ih h
        rw [Nat.add_assoc, ← Chars.byteSize_cons] at herror
        exact ⟨c :: before, d, after, rfl, herror⟩
      cases inside with
      | succ n => exact hlater h
      | zero =>
          rw [readAll] at h
          by_cases hgap : Token.isGap c = true
          · rw [if_pos hgap] at h
            exact hlater h
          · rw [if_neg hgap] at h
            rcases bind_eq_error.mp h with hread | ⟨⟨token, more⟩, -, h⟩
            · exact ⟨[], c, s, rfl, Token.read_eq_error hread⟩
            · rcases bind_eq_error.mp h with h | ⟨rest, -, h⟩
              · exact hlater h
              · cases h

/-! ### Errors of the parser -/

namespace Expr

variable {size : Nat} {tokens rest : List LocatedToken} {next : Parser}

/-- `Blames size tokens error`: the error speaks of the first of the tokens or, if there is none, of
the end of a text of `size` bytes. -/
inductive Blames (size : Nat) : List LocatedToken → SyntaxError → Prop
  | unexpected (expected : Expectation) (tokens : List LocatedToken) :
      Blames size tokens (Expr.unexpected size expected tokens)
  | invalidNumber (raw : String) (p : Nat) (rest : List LocatedToken) :
      Blames size (⟨.number raw, p⟩ :: rest) (.invalidNumber raw p)
  | tooDeep (t : Token) (p : Nat) (rest : List LocatedToken) :
      Blames size (⟨t, p⟩ :: rest) (.tooDeep p)
  | trailing (t : Token) (p : Nat) (rest : List LocatedToken) :
      Blames size (⟨t, p⟩ :: rest) (.trailing p)

/-- What a parser comes to on the tokens: it leaves the last of them, or speaks of one of them or of
the end. -/
def Within (size : Nat) (tokens : List LocatedToken) :
    Except SyntaxError (Expr × List LocatedToken) → Prop
  | .ok (_, rest) => rest <:+ tokens
  | .error error => ∃ rest, rest <:+ tokens ∧ Blames size rest error

variable {x : Except SyntaxError (Expr × List LocatedToken)}
  {f : Expr × List LocatedToken → Except SyntaxError (Expr × List LocatedToken)}

theorem Within.mono (h : Within size rest x) (hrest : rest <:+ tokens) : Within size tokens x := by
  cases x with
  | ok result => exact List.IsSuffix.trans h hrest
  | error error =>
      obtain ⟨last, hlast, hblames⟩ := h
      exact ⟨last, hlast.trans hrest, hblames⟩

theorem Within.bind (h : Within size tokens x) (hf : ∀ e rest, Within size rest (f (e, rest))) :
    Within size tokens (x >>= f) := by
  cases x with
  | ok result => exact (hf result.1 result.2).mono h
  | error error => exact h

theorem within_ok (e : Expr) (tokens : List LocatedToken) : Within size tokens (.ok (e, tokens)) :=
  List.suffix_refl tokens

theorem Within.rebuild (h : Within size tokens x) (g : Expr → Expr) :
    Within size tokens (x >>= fun result => return (g result.1, result.2)) :=
  h.bind fun e rest => within_ok (g e) rest

theorem within_unexpected (expected : Expectation) (tokens : List LocatedToken) :
    Within size tokens (.error (unexpected size expected tokens)) :=
  ⟨tokens, List.suffix_refl tokens, .unexpected expected tokens⟩

/-- A parser stays within its tokens, whatever they are. -/
def StaysWithin (size : Nat) (p : Parser) : Prop := ∀ tokens, Within size tokens (p tokens)

theorem staysWithin_chainFrom (l : BinaryOp.Level) (h : StaysWithin size next)
    (turns : List LocatedToken) (left : Expr) : StaysWithin size (chainFrom l next turns left) := by
  intro tokens
  fun_induction chainFrom l next turns left tokens with
  | case2 turn turns left op p after hop ih =>
      exact ((h after).bind fun e rest => ih e rest).mono (List.suffix_cons _ _)
  | case1 | case3 | case4 => exact within_ok _ _

theorem staysWithin_chain (l : BinaryOp.Level) (h : StaysWithin size next) :
    StaysWithin size (chain l next) :=
  fun tokens => (h tokens).bind fun first rest => staysWithin_chainFrom l h rest first rest

theorem staysWithin_comparison (h : StaysWithin size next) :
    StaysWithin size (comparison next) := by
  intro tokens
  refine (h tokens).bind fun left rest => ?_
  dsimp only
  split
  · split
    · exact ((h _).rebuild _).mono (List.suffix_cons _ _)
    · exact within_ok _ _
  · exact within_ok _ _

theorem staysWithin_levels (h : StaysWithin size next) : StaysWithin size (levels next) :=
  staysWithin_chain _ (staysWithin_chain _ (staysWithin_comparison
    (staysWithin_chain _ (staysWithin_chain _ h))))

theorem staysWithin_leaf (size : Nat) : StaysWithin size (leaf size) := by
  intro tokens
  fun_cases leaf size tokens with
  | case4 raw p rest => exact within_unexpected .propertyName (⟨.name raw, p⟩ :: rest)
  | case6 raw p rest => exact ⟨_, List.suffix_refl _, .invalidNumber raw p rest⟩
  | case8 => exact within_unexpected .operand _
  | case1 | case2 | case3 | case5 | case7 => exact List.suffix_cons _ _

theorem within_closed (e : Expr) (tokens : List LocatedToken) :
    Within size tokens (closed size (e, tokens)) := by
  rw [closed.eq_def]
  split
  · rename_i heq
    obtain ⟨rfl, rfl⟩ := Prod.mk.inj heq
    exact List.suffix_cons _ _
  · rename_i heq
    obtain ⟨rfl, rfl⟩ := Prod.mk.inj heq
    exact within_unexpected .closingParenthesis _

theorem staysWithin_operand (size : Nat) : ∀ depth, StaysWithin size (operand size depth) := by
  intro depth
  induction depth with
  | zero =>
      intro tokens
      simp only [operand]
      split
      · exact ⟨_, List.suffix_refl _, .tooDeep _ _ _⟩
      · exact ⟨_, List.suffix_refl _, .tooDeep _ _ _⟩
      · exact ⟨_, List.suffix_refl _, .tooDeep _ _ _⟩
      · exact staysWithin_leaf size tokens
  | succ depth ih =>
      intro tokens
      simp only [operand]
      split
      · exact ((ih _).rebuild _).mono (List.suffix_cons _ _)
      · exact ((ih _).rebuild _).mono (List.suffix_cons _ _)
      · exact ((staysWithin_levels ih _).bind within_closed).mono (List.suffix_cons _ _)
      · exact staysWithin_leaf size tokens

theorem blames_of_ofTokens {error : SyntaxError} (h : ofTokens size tokens = .error error) :
    ∃ rest, rest <:+ tokens ∧ Blames size rest error := by
  have hwithin := staysWithin_levels (staysWithin_operand size maxExprNesting) tokens
  rcases bind_eq_error.mp h with hlevels | ⟨⟨e, rest⟩, hlevels, hend⟩
  · rwa [hlevels] at hwithin
  · rw [hlevels] at hwithin
    cases rest with
    | nil => exact nomatch hend
    | cons t rest =>
        obtain rfl := Except.error.inj hend
        exact ⟨t :: rest, hwithin, .trailing t.token t.position rest⟩

end Expr

/-! ### What is shown -/

namespace Token

variable {token : Token} {source : List Char}

/-- No token is shown like the end of the text. -/
theorem describe_ne_endOfInput (h : token.Spellable) : token.describe ≠ "end of input" := by
  intro heq
  cases token with
  | name raw =>
      obtain ⟨c, s, hraw, -, hs⟩ := h
      obtain rfl : raw = "end of input" := heq
      obtain ⟨-, rfl⟩ := List.cons.inj hraw
      exact absurd (hs ' ' (by decide)) (by decide)
  | number raw =>
      obtain ⟨c, s, hraw, hc, -⟩ := h
      obtain rfl : raw = "end of input" := heq
      obtain ⟨rfl, -⟩ := List.cons.inj hraw
      exact absurd hc (by decide)
  | text content =>
      have hhead := congrArg (·.toList.head?) heq
      simp only [describe, String.toList_append] at hhead
      exact absurd hhead (by simp)
  | bang | openParen | closeParen => exact absurd heq (by decide)
  | operator op => cases op <;> exact absurd heq (by decide)

/-- A token is shown by its source, unless it is a quoted text. -/
theorem Source.describe (h : token.Source source) :
    token.describe = String.ofList source ∨ ∃ content, token = .text content := by
  cases token with
  | text content => exact Or.inr ⟨content, rfl⟩
  | name | number | bang | openParen | closeParen | operator =>
      exact Or.inl (by rw [h, String.ofList_toList])

end Token

namespace SyntaxError

variable {text part : String} {p : Nat} {error : SyntaxError} {tokens rest : List LocatedToken}

/-- An error that speaks of a part of the text. -/
theorem pointsInto_of_standsAt (hstands : Text.StandsAt text p part) (hpart : part ≠ "")
    (hposition : error.position? = some p)
    (hnumber : ∀ raw q, error = .invalidNumber raw q → raw = part)
    (hfound : ∀ expected found q, error = .unexpected expected found q →
      found ≠ "end of input" ∧ (found = part ∨ ∃ content,
        found = (Token.text content).describe ∧ (Token.text content).Source part.toList)) :
    error.PointsInto text where
  isValid := by
    rintro q hq
    obtain rfl := Option.some.inj (hposition.symm.trans hq)
    exact hstands.isValid
  le_size := by
    rintro q hq
    obtain rfl := Option.some.inj (hposition.symm.trans hq)
    exact (hstands.position_lt hpart).le
  invalidNumber := by
    rintro raw q rfl
    obtain rfl := Option.some.inj hposition
    exact hnumber raw q rfl ▸ hstands
  unexpected := by
    rintro expected found q rfl
    obtain rfl := Option.some.inj hposition
    obtain ⟨hend, hshown⟩ := hfound expected found q rfl
    refine Or.inr ⟨hend, hstands.position_lt hpart, ?_⟩
    rcases hshown with rfl | ⟨content, hcontent, hsource⟩
    · exact Or.inl hstands
    · exact Or.inr ⟨content, part.toList, hcontent, hsource, by rwa [String.ofList_toList]⟩

theorem pointsInto_of_position?_eq_none (h : error.position? = none) : error.PointsInto text := by
  cases error with
  | empty | tooLarge | unknownName => exact ⟨nofun, nofun, nofun, nofun⟩
  | tooDeep | unexpected | unterminatedText | invalidNumber | trailing => exact nomatch h

theorem pointsInto_of_blames (htiles : LocatedToken.Tiles 0 text.toList tokens)
    (hrest : rest <:+ tokens) (h : Expr.Blames text.utf8ByteSize rest error) :
    error.PointsInto text := by
  cases rest with
  | nil =>
      obtain ⟨expected, -⟩ := h
      refine ⟨?_, ?_, nofun, ?_⟩
      · rintro _ ⟨⟩
        exact Text.isValid_utf8ByteSize text
      · rintro _ ⟨⟩
        exact le_rfl
      · rintro _ _ _ ⟨⟩
        exact Or.inl ⟨rfl, rfl⟩
  | cons t rest =>
      obtain ⟨before, source, after, htext, hbefore, hspell, hsource⟩ :=
        htiles.exists_source (hrest.subset List.mem_cons_self)
      obtain ⟨c, more, rfl, -⟩ := hsource.exists_cons hspell
      rw [Nat.zero_add] at hbefore
      have hstands : Text.StandsAt text t.position (String.ofList (c :: more)) :=
        hbefore ▸ Text.standsAt_byteSize htext
      have hpart : String.ofList (c :: more) ≠ "" := by simp
      cases h with
      | unexpected expected =>
          refine pointsInto_of_standsAt hstands hpart rfl nofun ?_
          rintro _ _ _ ⟨⟩
          refine ⟨Token.describe_ne_endOfInput hspell, ?_⟩
          rcases hsource.describe with hshown | ⟨content, hcontent⟩
          · exact Or.inl hshown
          · refine Or.inr ⟨content, congrArg Token.describe hcontent, ?_⟩
            rwa [String.toList_ofList, ← hcontent]
      | invalidNumber raw q =>
          refine pointsInto_of_standsAt hstands hpart rfl ?_ nofun
          rintro _ _ ⟨⟩
          exact String.toList_inj.mp (by rw [String.toList_ofList, hsource]; rfl)
      | tooDeep | trailing => exact pointsInto_of_standsAt hstands hpart rfl nofun nofun

theorem pointsInto_of_ofText (h : LocatedToken.ofText text = .error error) :
    error.PointsInto text := by
  obtain ⟨before, c, after, htext, herror⟩ := LocatedToken.readAll_eq_error h
  rw [Nat.zero_add] at herror
  have hstands : Text.StandsAt text (Chars.byteSize before) (String.ofList [c]) :=
    Text.standsAt_byteSize (by rw [htext, List.append_assoc]; rfl)
  have hpart : String.ofList [c] ≠ "" := by simp
  rcases herror with rfl | ⟨expected, rfl⟩
  · exact pointsInto_of_standsAt hstands hpart rfl nofun nofun
  · refine pointsInto_of_standsAt hstands hpart rfl nofun ?_
    rintro _ _ _ ⟨⟩
    refine ⟨fun heq => ?_, Or.inl String.singleton_eq_ofList⟩
    have hlength := congrArg String.length heq
    rw [String.length_singleton] at hlength
    exact absurd hlength (by decide)

theorem pointsInto_of_parse (h : Expr.parse text = .error error) : error.PointsInto text := by
  by_cases hsize : maxExprBytes < text.utf8ByteSize
  · simp only [Expr.parse, if_pos hsize] at h
    obtain rfl := Except.error.inj h
    exact pointsInto_of_position?_eq_none rfl
  · simp only [Expr.parse, if_neg hsize] at h
    rcases bind_eq_error.mp h with h | ⟨tokens, htokens, h⟩
    · exact pointsInto_of_ofText h
    · have htiles := LocatedToken.tiles_of_readAll htokens
      cases tokens with
      | nil =>
          obtain rfl := Except.error.inj h
          exact pointsInto_of_position?_eq_none rfl
      | cons t tokens =>
          obtain ⟨rest, hrest, hblames⟩ := Expr.blames_of_ofTokens h
          exact pointsInto_of_blames htiles hrest hblames

end SyntaxError

end TestSelection
