import Mathlib.Data.List.TakeWhile
import TestSelection.Expr.Token
import TestSelection.Proofs.Bytes
import TestSelection.Proofs.Digits
import TestSelection.Proofs.Except

/-!
What stands in a text for its tokens. The source of a token is what a message shows of it, except
that a quoted text stands there with its escapes. A token is read at a place exactly if its source
stands there and the token does not go on behind it; so a text has given tokens exactly if it
consists of their sources, in order, and of characters that may stand between tokens.
-/

namespace TestSelection

namespace Token

/-! ### Sources -/

/-- The text of a name or a number is one token; the other tokens can always be written. -/
def Spellable : Token → Prop
  | name raw => ∃ c s, raw.toList = c :: s ∧ startsName c = true ∧
      ∀ d ∈ s, continuesName d = true
  | number raw => ∃ c s, raw.toList = c :: s ∧ c.isDigit = true ∧
      ∀ d ∈ s, continuesNumber d = true
  | text _ | bang | openParen | closeParen | operator _ => True

/-- `Quoted s t`: up to the first quote that is not part of an escape, and with it, the characters
`s` are the quoted form of `t`. -/
inductive Quoted : List Char → List Char → Prop
  | close : Quoted ['"'] []
  | escape {c : Char} {s t : List Char} (hc : c = '"' ∨ c = '\\') (h : Quoted s t) :
      Quoted ('\\' :: c :: s) (c :: t)
  | plain {c : Char} {s t : List Char} (hquote : c ≠ '"')
      (hescape : c = '\\' → ∀ d ∈ s.head?, d ≠ '"' ∧ d ≠ '\\') (h : Quoted s t) :
      Quoted (c :: s) (c :: t)

/-- The characters that a token is read from. -/
def Source : Token → List Char → Prop
  | text t, s => ∃ inner, s = '"' :: inner ∧ Quoted inner t.toList
  | token, s => s = token.describe.toList

/-- Whether a token would be a longer one if a character followed. -/
def goesOn : Token → Char → Bool
  | name _, c => continuesName c
  | number _, c => continuesNumber c
  | bang, c | operator .lt, c | operator .gt, c => c == '='
  | text _, _ | openParen, _ | closeParen, _ | operator _, _ => false

variable {s t rest : List Char} {c : Char} {position more : Nat} {token : Token}

theorem Quoted.ne_nil (h : Quoted s t) : s ≠ [] := by
  cases h <;> exact List.cons_ne_nil _ _

theorem isDigit_of_startsName (hc : startsName c = true) : c.isDigit = false := by
  rw [← Bool.not_eq_true]
  intro hdigit
  obtain ⟨hlow, hhigh⟩ := Chars.toNat_of_isDigit hdigit
  rcases Bool.or_eq_true_iff.mp hc with hletter | hunderscore
  · rcases Bool.or_eq_true_iff.mp hletter with hupper | hlower
    · have hupperLow : 65 ≤ c.toNat := UInt32.le_iff_toNat_le.mp (of_decide_eq_true hupper).1
      omega
    · have hbounds := Bool.and_eq_true_iff.mp hlower
      have hlowerLow : 97 ≤ c.toNat := UInt32.le_iff_toNat_le.mp (of_decide_eq_true hbounds.1)
      omega
  · obtain rfl := beq_iff_eq.mp hunderscore
    exact absurd hdigit (by decide)

theorem continuesName_of_isAlphanum (hc : c.isAlphanum = true) : continuesName c = true := by
  rw [continuesName, Chars.isWordChar, hc]
  rfl

theorem continuesNumber_of_isDigit (hc : c.isDigit = true) : continuesNumber c = true := by
  rw [continuesNumber, Char.isAlphanum, hc, Bool.or_true, Bool.true_or]

theorem continuesName_of_continuesNumber (hc : continuesNumber c = true) :
    continuesName c = true := by
  rcases Bool.or_eq_true_iff.mp hc with hword | hpoint
  · exact continuesName_of_isAlphanum hword
  · rw [continuesName, hpoint, Bool.or_true]

theorem continuesName_of_startsName (hc : startsName c = true) : continuesName c = true := by
  rcases Bool.or_eq_true_iff.mp hc with hletter | hunderscore
  · exact continuesName_of_isAlphanum (by rw [Char.isAlphanum, hletter, Bool.true_or])
  · rw [continuesName, Chars.isWordChar, hunderscore, Bool.or_true, Bool.true_or]

/-- A name or a number has no characters but those that a name goes on with. -/
theorem continuesName_of_spellable {raw : String}
    (h : (name raw).Spellable ∨ (number raw).Spellable) :
    ∀ c ∈ raw.toList, continuesName c = true := by
  rcases h with ⟨c, s, hraw, hc, hs⟩ | ⟨c, s, hraw, hc, hs⟩
  · rw [hraw]
    exact List.forall_mem_cons.mpr ⟨continuesName_of_startsName hc, hs⟩
  · rw [hraw]
    exact List.forall_mem_cons.mpr
      ⟨continuesName_of_continuesNumber (continuesNumber_of_isDigit hc),
        fun d hd => continuesName_of_continuesNumber (hs d hd)⟩

theorem isGap_iff : isGap c = true ↔ c = ' ' ∨ c = '\t' ∨ c = '\n' ∨ c = '\r' := by
  simp only [isGap, Bool.or_eq_true, beq_iff_eq, or_assoc]

theorem isGap_eq_false (hc : startsName c = true ∨ c.isDigit = true) : isGap c = false := by
  rw [← Bool.not_eq_true, isGap_iff]
  rintro (rfl | rfl | rfl | rfl) <;> exact absurd hc (by decide)

/-- The source of a token has a first character, which does not stand between tokens. -/
theorem Source.exists_cons (hspell : token.Spellable) (h : token.Source s) :
    ∃ c t, s = c :: t ∧ isGap c = false := by
  cases token with
  | name raw =>
      obtain ⟨c, t, hraw, hc, -⟩ := hspell
      exact ⟨c, t, h.trans hraw, isGap_eq_false (Or.inl hc)⟩
  | number raw =>
      obtain ⟨c, t, hraw, hc, -⟩ := hspell
      exact ⟨c, t, h.trans hraw, isGap_eq_false (Or.inr hc)⟩
  | text t =>
      obtain ⟨inner, rfl, -⟩ := h
      exact ⟨'"', inner, rfl, rfl⟩
  | bang | openParen | closeParen => exact ⟨_, [], h, rfl⟩
  | operator op => cases op <;> exact ⟨_, _, h, rfl⟩

/-! ### Reading at a place -/

/-- The characters that a token goes on with are cut off where another one follows. -/
theorem takeWhile_eq_iff {p : Char → Bool} :
    s.takeWhile p = t ↔
      ∃ rest, s = t ++ rest ∧ (∀ c ∈ t, p c = true) ∧ ∀ c ∈ rest.head?, p c = false := by
  constructor
  · rintro rfl
    refine ⟨s.dropWhile p, List.takeWhile_append_dropWhile.symm, fun c => List.mem_takeWhile_imp,
      fun c hc => ?_⟩
    have hhead := List.head?_dropWhile_not p s
    rwa [Option.mem_def.mp hc] at hhead
  · rintro ⟨rest, rfl, ht, hrest⟩
    rw [List.takeWhile_append_of_pos ht]
    cases rest with
    | nil => rw [List.takeWhile_nil, List.append_nil]
    | cons c rest => rw [List.takeWhile_cons_of_neg (by simp [hrest c rfl]), List.append_nil]

/-- A quoted text is read up to the quote that ends it. -/
theorem quoted?_eq_some {n : Nat} :
    quoted? s = some (t, n) ↔
      ∃ source rest, s = source ++ rest ∧ source.length = n ∧ Quoted source t := by
  constructor
  · intro h
    fun_induction quoted? s generalizing t n with
    | case1 => exact nomatch h
    | case2 s =>
        obtain ⟨rfl, rfl⟩ := Prod.mk.inj (Option.some.inj h)
        exact ⟨['"'], s, rfl, rfl, .close⟩
    | case3 s ih | case4 s ih =>
        obtain ⟨⟨inner, m⟩, hinner, heq⟩ := Option.map_eq_some_iff.mp h
        obtain ⟨rfl, rfl⟩ := Prod.mk.inj heq
        obtain ⟨source, rest, rfl, rfl, hsource⟩ := ih hinner
        exact ⟨_, rest, rfl, rfl, .escape (by simp) hsource⟩
    | case5 c s hquote hescape hbackslash ih =>
        obtain ⟨⟨inner, m⟩, hinner, heq⟩ := Option.map_eq_some_iff.mp h
        obtain ⟨rfl, rfl⟩ := Prod.mk.inj heq
        obtain ⟨source, rest, rfl, rfl, hsource⟩ := ih hinner
        refine ⟨c :: source, rest, rfl, rfl, .plain hquote (fun hc d hd => ?_) hsource⟩
        obtain ⟨tail, rfl⟩ := List.head?_eq_some_iff.mp hd
        exact ⟨fun hd => hescape (tail ++ rest) hc (by rw [hd]; rfl),
          fun hd => hbackslash (tail ++ rest) hc (by rw [hd]; rfl)⟩
  · rintro ⟨source, rest, rfl, rfl, h⟩
    induction h with
    | close => rfl
    | @escape c source t hc _ ih =>
        rcases hc with rfl | rfl <;> rw [List.cons_append, List.cons_append, quoted?, ih] <;> rfl
    | @plain c source t hquote hescape hsource ih =>
        obtain ⟨d, source, rfl⟩ := List.exists_cons_of_ne_nil hsource.ne_nil
        rw [List.cons_append, quoted?, ih]
        · rfl
        · exact hquote
        · rintro s rfl heq
          exact (hescape rfl d rfl).1 (List.cons.inj heq).1
        · rintro s rfl heq
          exact (hescape rfl d rfl).2 (List.cons.inj heq).1

theorem withEquals_eq {longer shorter : Token} :
    withEquals longer shorter s = (token, more) ↔
      (∃ rest, s = '=' :: rest ∧ token = longer ∧ more = 1) ∨
        (∀ c ∈ s.head?, c ≠ '=') ∧ token = shorter ∧ more = 0 := by
  unfold withEquals
  split
  · rename_i rest
    simp [Prod.ext_iff, eq_comm]
  · rename_i hne
    have hhead : ∀ c ∈ s.head?, c ≠ '=' := by
      rintro c hc rfl
      obtain ⟨rest, rfl⟩ := List.head?_eq_some_iff.mp hc
      exact hne rest rfl
    constructor
    · rintro ⟨⟩
      exact Or.inr ⟨hhead, rfl, rfl⟩
    · rintro (⟨rest, rfl, -⟩ | ⟨-, rfl, rfl⟩)
      · exact absurd rfl (hne rest)
      · rfl

/-- A token that is read stands there with its source, and does not go on behind it. -/
theorem source_of_read (h : read position c s = .ok (token, more)) :
    ∃ t rest, s = t ++ rest ∧ t.length = more ∧ token.Spellable ∧ token.Source (c :: t) ∧
      ∀ d ∈ rest.head?, token.goesOn d = false := by
  unfold read at h
  split at h
  case h_1 | h_2 | h_3 | h_4 | h_5 | h_6 | h_7 | h_8 | h_9 =>
      obtain ⟨rfl, rfl⟩ := Prod.mk.inj (Except.ok.inj h)
      exact ⟨[], s, rfl, rfl, trivial, rfl, fun _ _ => rfl⟩
  case h_10 | h_11 | h_12 =>
      rcases withEquals_eq.mp (Except.ok.inj h) with ⟨rest, rfl, rfl, rfl⟩ | ⟨hrest, rfl, rfl⟩
      · exact ⟨['='], rest, rfl, rfl, trivial, rfl, fun _ _ => rfl⟩
      · exact ⟨[], s, rfl, rfl, trivial, rfl, fun d hd => beq_eq_false_iff_ne.mpr (hrest d hd)⟩
  case h_13 =>
      split at h
      · rename_i rest
        obtain ⟨rfl, rfl⟩ := Prod.mk.inj (Except.ok.inj h)
        exact ⟨['='], rest, rfl, rfl, trivial, rfl, fun _ _ => rfl⟩
      · exact nomatch h
  case h_14 =>
      split at h
      · rename_i content n hcontent
        obtain ⟨rfl, rfl⟩ := Prod.mk.inj (Except.ok.inj h)
        obtain ⟨source, rest, rfl, rfl, hsource⟩ := quoted?_eq_some.mp hcontent
        exact ⟨source, rest, rfl, rfl, trivial, ⟨source, rfl, by rwa [String.toList_ofList]⟩,
          fun _ _ => rfl⟩
      · exact nomatch h
  case h_15 =>
      dsimp only at h
      by_cases hdigit : c.isDigit = true
      · rw [if_pos hdigit] at h
        obtain ⟨rfl, rfl⟩ := Prod.mk.inj (Except.ok.inj h)
        obtain ⟨rest, hs, hmore, hrest⟩ :=
          takeWhile_eq_iff.mp (rfl : s.takeWhile continuesNumber = _)
        exact ⟨_, rest, hs, rfl, ⟨c, _, String.toList_ofList, hdigit, hmore⟩,
          String.toList_ofList.symm, hrest⟩
      · rw [if_neg hdigit] at h
        by_cases hname : startsName c = true
        · rw [if_pos hname] at h
          obtain ⟨rfl, rfl⟩ := Prod.mk.inj (Except.ok.inj h)
          obtain ⟨rest, hs, hmore, hrest⟩ :=
            takeWhile_eq_iff.mp (rfl : s.takeWhile continuesName = _)
          exact ⟨_, rest, hs, rfl, ⟨c, _, String.toList_ofList, hname, hmore⟩,
            String.toList_ofList.symm, hrest⟩
        · rw [if_neg hname] at h
          exact nomatch h

theorem read_number (hc : c.isDigit = true) (ht : ∀ d ∈ t, continuesNumber d = true)
    (hrest : ∀ d ∈ rest.head?, continuesNumber d = false) :
    read position c (t ++ rest) = .ok (number (String.ofList (c :: t)), t.length) := by
  unfold read
  split
  case h_15 =>
      dsimp only
      rw [if_pos hc, takeWhile_eq_iff.mpr ⟨rest, rfl, ht, hrest⟩]
  all_goals exact absurd hc (by decide)

theorem read_name (hc : startsName c = true) (ht : ∀ d ∈ t, continuesName d = true)
    (hrest : ∀ d ∈ rest.head?, continuesName d = false) :
    read position c (t ++ rest) = .ok (name (String.ofList (c :: t)), t.length) := by
  unfold read
  split
  case h_15 =>
      dsimp only
      rw [isDigit_of_startsName hc, if_neg Bool.false_ne_true, if_pos hc,
        takeWhile_eq_iff.mpr ⟨rest, rfl, ht, hrest⟩]
  all_goals exact absurd hc (by decide)

theorem withEquals_of_source {longer shorter : Token}
    (hrest : ∀ d ∈ rest.head?, (d == '=') = false) :
    withEquals longer shorter rest = (shorter, 0) :=
  withEquals_eq.mpr (Or.inr ⟨fun d hd => beq_eq_false_iff_ne.mp (hrest d hd), rfl, rfl⟩)

/-- Where the source of a token stands and nothing that the token would go on with, it is read. -/
theorem read_of_source (hspell : token.Spellable) (h : token.Source (c :: t))
    (hrest : ∀ d ∈ rest.head?, token.goesOn d = false) :
    read position c (t ++ rest) = .ok (token, t.length) := by
  cases token with
  | name raw =>
      obtain ⟨c', t', hraw, hc, ht⟩ := hspell
      obtain ⟨rfl, rfl⟩ := List.cons.inj (h.trans hraw)
      rw [read_name hc ht hrest, ← hraw, String.ofList_toList]
  | number raw =>
      obtain ⟨c', t', hraw, hc, ht⟩ := hspell
      obtain ⟨rfl, rfl⟩ := List.cons.inj (h.trans hraw)
      rw [read_number hc ht hrest, ← hraw, String.ofList_toList]
  | text content =>
      obtain ⟨inner, hinner, hquoted⟩ := h
      obtain ⟨rfl, rfl⟩ := List.cons.inj hinner
      rw [read, quoted?_eq_some.mpr ⟨t, rest, rfl, rfl, hquoted⟩]
      dsimp only
      rw [String.ofList_toList]
  | bang =>
      obtain ⟨rfl, rfl⟩ := List.cons.inj h
      exact congrArg Except.ok (withEquals_of_source hrest)
  | openParen | closeParen =>
      obtain ⟨rfl, rfl⟩ := List.cons.inj h
      rfl
  | operator op =>
      cases op with
      | lt | gt =>
          obtain ⟨rfl, rfl⟩ := List.cons.inj h
          exact congrArg Except.ok (withEquals_of_source hrest)
      | _ =>
          obtain ⟨rfl, rfl⟩ := List.cons.inj h
          rfl

theorem read_eq_ok :
    read position c s = .ok (token, more) ↔
      ∃ t rest, s = t ++ rest ∧ t.length = more ∧ token.Spellable ∧ token.Source (c :: t) ∧
        ∀ d ∈ rest.head?, token.goesOn d = false := by
  constructor
  · exact source_of_read
  · rintro ⟨t, rest, rfl, rfl, hspell, hsource, hrest⟩
    exact read_of_source hspell hsource hrest

end Token

/-! ### Tiling -/

namespace LocatedToken

/-- `Tiles p s tokens`: a text that starts at `p` is cut into the sources of the tokens, each at
the position that is kept with its token, and characters that stand between tokens. -/
inductive Tiles : Nat → List Char → List LocatedToken → Prop
  | nil {p : Nat} : Tiles p [] []
  | gap {p : Nat} {c : Char} {s : List Char} {tokens : List LocatedToken}
      (hgap : Token.isGap c = true) (h : Tiles (p + c.utf8Size) s tokens) :
      Tiles p (c :: s) tokens
  | tile {p : Nat} {t : Token} {source rest : List Char} {tokens : List LocatedToken}
      (hspell : t.Spellable) (hsource : t.Source source)
      (hrest : ∀ c ∈ rest.head?, t.goesOn c = false)
      (h : Tiles (p + Chars.byteSize source) rest tokens) :
      Tiles p (source ++ rest) (⟨t, p⟩ :: tokens)

variable {p : Nat} {s : List Char} {tokens : List LocatedToken}

/-- What belongs to a token that has been read is passed over. -/
theorem readAll_length_append (p : Nat) (t s : List Char) :
    readAll p t.length (t ++ s) = readAll (p + Chars.byteSize t) 0 s := by
  induction t generalizing p with
  | nil => rfl
  | cons c t ih => rw [List.length_cons, List.cons_append, readAll, ih, Chars.byteSize_cons,
      Nat.add_assoc]

theorem tiles_of_readAll (h : readAll p 0 s = .ok tokens) : Tiles p s tokens := by
  induction hn : s.length using Nat.strong_induction_on generalizing p s tokens with
  | _ n ih =>
      cases s with
      | nil =>
          obtain rfl := Except.ok.inj h
          exact .nil
      | cons c s =>
          rw [List.length_cons] at hn
          rw [readAll] at h
          by_cases hgap : Token.isGap c = true
          · rw [if_pos hgap] at h
            exact .gap hgap (ih s.length (by omega) h rfl)
          · rw [if_neg hgap] at h
            obtain ⟨⟨token, more⟩, hread, h⟩ := bind_eq_ok.mp h
            obtain ⟨rest, hrest, h⟩ := bind_eq_ok.mp h
            obtain rfl := Except.ok.inj h
            obtain ⟨t, after, rfl, rfl, hspell, hsource, hafter⟩ := Token.read_eq_ok.mp hread
            rw [readAll_length_append, Nat.add_assoc, ← Chars.byteSize_cons] at hrest
            rw [List.length_append] at hn
            exact .tile hspell hsource hafter (ih after.length (by omega) hrest rfl)

theorem readAll_of_tiles (h : Tiles p s tokens) : readAll p 0 s = .ok tokens := by
  induction h with
  | nil => rfl
  | gap hgap _ ih => rw [readAll, if_pos hgap, ih]
  | @tile p t source rest tokens hspell hsource hrest _ ih =>
      obtain ⟨c, source, rfl, hgap⟩ := hsource.exists_cons hspell
      rw [Chars.byteSize_cons, ← Nat.add_assoc] at ih
      have hread : Token.read p c (source ++ rest) = .ok (t, source.length) :=
        Token.read_of_source hspell hsource hrest
      have hafter := (readAll_length_append (p + c.utf8Size) source rest).trans ih
      rw [List.cons_append, readAll, hgap, if_neg Bool.false_ne_true]
      exact bind_eq_ok.mpr ⟨_, hread, bind_eq_ok.mpr ⟨tokens, hafter, rfl⟩⟩

end LocatedToken

end TestSelection
