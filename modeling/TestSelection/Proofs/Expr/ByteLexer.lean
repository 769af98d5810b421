import TestSelection.Proofs.Expr.Sources

/-!
A lexer that walks over the bytes of a text. It looks at one byte at a time, keeps places as numbers
of bytes and cuts names, numbers and the pieces of quoted texts out of the text between two places,
which fails where one of them lies inside a character. It ends because each step leads on.
-/

namespace TestSelection

/-- What can end a walk over the bytes of a text. -/
inductive LexFault
  /-- A part of the text was to be cut out at a place inside a character. -/
  | torn (position : Nat)
  | refused (error : SyntaxError)
deriving DecidableEq

namespace ByteLexer

/-- The byte at a place, as the character with its number. -/
def byteAt? (text : String) (place : Nat) : Option Char :=
  text.toByteArray[place]?.map Char.ofUInt8

theorem lt_of_byteAt? {text : String} {place : Nat} {b : Char} (h : byteAt? text place = some b) :
    place < text.utf8ByteSize := by
  obtain ⟨byte, hbyte, -⟩ := Option.map_eq_some_iff.mp h
  rw [Chars.getElem?_bytes] at hbyte
  obtain ⟨hlt, -⟩ := List.getElem?_eq_some_iff.mp hbyte
  rwa [Chars.length_utf8, Chars.byteSize_toList] at hlt

/-- The text between two places, which have to be places between characters. -/
def slice (text : String) (start stop : Nat) : Except LexFault String :=
  if ¬ (⟨start⟩ : String.Pos.Raw).IsValid text then .error (.torn start)
  else if ¬ (⟨stop⟩ : String.Pos.Raw).IsValid text then .error (.torn stop)
  else .ok (String.Pos.Raw.extract text ⟨start⟩ ⟨stop⟩)

/-- The first place from the given one on whose byte lacks a property. -/
def skipWhile (text : String) (p : Char → Bool) (place : Nat) : Nat :=
  match _ : byteAt? text place with
  | none => place
  | some b => if p b then skipWhile text p (place + 1) else place
termination_by text.utf8ByteSize - place
decreasing_by
  have := lt_of_byteAt? ‹byteAt? text place = some b›
  omega

/-- The rest of a quoted text that opens at a place, and the place behind it. The text up to
`piece` has been taken already, and from there to `place` there is no escape. -/
def quotedFrom (text : String) (opening piece place : Nat) (content : String) :
    Except LexFault (String × Nat) :=
  match _ : byteAt? text place with
  | none => .error (.refused (.unterminatedText opening))
  | some b =>
    if b = '"' then do
      let last ← slice text piece place
      return (content ++ last, place + 1)
    else
      match byteAt? text (place + 1) with
      | some e =>
        if b = '\\' ∧ (e = '"' ∨ e = '\\') then do
          let last ← slice text piece place
          quotedFrom text opening (place + 2) (place + 2) (content ++ last ++ String.singleton e)
        else quotedFrom text opening piece (place + 1) content
      | none => quotedFrom text opening piece (place + 1) content
termination_by text.utf8ByteSize - place
decreasing_by
  all_goals
    have := lt_of_byteAt? ‹byteAt? text place = some b›
    omega

/-- One of two tokens, the longer if an equals sign follows, and the place behind it. -/
def withEquals (text : String) (longer shorter : Token) (place : Nat) : Token × Nat :=
  if byteAt? text (place + 1) = some '=' then (longer, place + 2) else (shorter, place + 1)

/-- The token that starts at a place with the given byte, and the place behind it. -/
def tokenAt (text : String) (place : Nat) (b : Char) : Except LexFault (Token × Nat) :=
  match b with
  | '(' => .ok (.openParen, place + 1)
  | ')' => .ok (.closeParen, place + 1)
  | '&' => .ok (.operator .and, place + 1)
  | '|' => .ok (.operator .or, place + 1)
  | '+' => .ok (.operator .add, place + 1)
  | '-' => .ok (.operator .sub, place + 1)
  | '*' => .ok (.operator .mul, place + 1)
  | '/' => .ok (.operator .div, place + 1)
  | '%' => .ok (.operator .rem, place + 1)
  | '!' => .ok (withEquals text (.operator .ne) .bang place)
  | '<' => .ok (withEquals text (.operator .le) (.operator .lt) place)
  | '>' => .ok (withEquals text (.operator .ge) (.operator .gt) place)
  | '=' =>
    if byteAt? text (place + 1) = some '=' then .ok (.operator .eq, place + 2)
    else .error (.refused (.unexpected .doubleEquals "=" place))
  | '"' => do
    let (content, stop) ← quotedFrom text place (place + 1) (place + 1) ""
    return (.text content, stop)
  | b =>
    if b.isDigit then do
      let stop := skipWhile text Token.continuesNumber place
      let raw ← slice text place stop
      return (.number raw, stop)
    else if Token.startsName b then do
      let stop := skipWhile text Token.continuesName place
      let raw ← slice text place stop
      return (.name raw, stop)
    else do
      let rest ← slice text place text.utf8ByteSize
      let found := (rest.toList.head?.map String.singleton).getD ""
      throw (.refused (.unexpected .token found place))

variable {text : String} {place stop : Nat} {b : Char} {token : Token}

theorem skipWhile_of_some {p : Char → Bool} (h : byteAt? text place = some b) :
    skipWhile text p place = if p b then skipWhile text p (place + 1) else place := by
  rw [skipWhile]
  split <;> simp_all

theorem le_skipWhile (text : String) (p : Char → Bool) (place : Nat) :
    place ≤ skipWhile text p place := by
  fun_induction skipWhile text p place with
  | case1 | case3 => exact le_rfl
  | case2 place b h hb ih => exact (Nat.le_succ place).trans ih

theorem lt_skipWhile {p : Char → Bool} (h : byteAt? text place = some b) (hb : p b = true) :
    place < skipWhile text p place := by
  rw [skipWhile_of_some h, if_pos hb]
  exact le_skipWhile text p (place + 1)

theorem lt_of_quotedFrom {opening piece : Nat} {content result : String}
    (h : quotedFrom text opening piece place content = .ok (result, stop)) : place < stop := by
  fun_induction quotedFrom text opening piece place content with
  | case1 => exact nomatch h
  | case2 =>
      obtain ⟨last, -, h⟩ := bind_eq_ok.mp h
      obtain ⟨-, rfl⟩ := Prod.mk.inj (Except.ok.inj h)
      exact Nat.lt_succ_self _
  | case3 piece place content b hb hquote e he hescape ih =>
      obtain ⟨last, -, h⟩ := bind_eq_ok.mp h
      exact (Nat.lt_add_of_pos_right Nat.zero_lt_two).trans (ih last h)
  | case4 piece place content b hb hquote e he hescape ih
  | case5 piece place content b hb hquote he ih => exact (Nat.lt_succ_self place).trans (ih h)

theorem lt_of_withEquals {longer shorter : Token}
    (h : withEquals text longer shorter place = (token, stop)) : place < stop := by
  rw [withEquals] at h
  split at h
  · obtain ⟨-, rfl⟩ := Prod.mk.inj h
    exact Nat.lt_add_of_pos_right Nat.zero_lt_two
  · obtain ⟨-, rfl⟩ := Prod.mk.inj h
    exact Nat.lt_succ_self place

/-- A token has a byte at least. -/
theorem lt_of_tokenAt (hbyte : byteAt? text place = some b)
    (h : tokenAt text place b = .ok (token, stop)) : place < stop := by
  unfold tokenAt at h
  split at h
  case h_10 | h_11 | h_12 => exact lt_of_withEquals (Except.ok.inj h)
  case h_13 =>
      split at h
      · obtain ⟨-, rfl⟩ := Prod.mk.inj (Except.ok.inj h)
        exact Nat.lt_add_of_pos_right Nat.zero_lt_two
      · exact nomatch h
  case h_14 =>
      obtain ⟨⟨content, stop'⟩, hquoted, h⟩ := bind_eq_ok.mp h
      obtain ⟨-, rfl⟩ := Prod.mk.inj (Except.ok.inj h)
      exact (Nat.lt_succ_self place).trans (lt_of_quotedFrom hquoted)
  case h_15 =>
      split at h
      · rename_i hdigit
        obtain ⟨raw, -, h⟩ := bind_eq_ok.mp h
        obtain ⟨-, rfl⟩ := Prod.mk.inj (Except.ok.inj h)
        exact lt_skipWhile hbyte (Token.continuesNumber_of_isDigit hdigit)
      · split at h
        · rename_i hname
          obtain ⟨raw, -, h⟩ := bind_eq_ok.mp h
          obtain ⟨-, rfl⟩ := Prod.mk.inj (Except.ok.inj h)
          exact lt_skipWhile hbyte (Token.continuesName_of_startsName hname)
        · obtain ⟨rest, -, h⟩ := bind_eq_ok.mp h
          exact nomatch h
  all_goals
      obtain ⟨-, rfl⟩ := Prod.mk.inj (Except.ok.inj h)
      exact Nat.lt_succ_self place

/-- The tokens from a place on. -/
def tokens (text : String) (place : Nat) : Except LexFault (List LocatedToken) :=
  match _ : byteAt? text place with
  | none => .ok []
  | some b =>
    if Token.isGap b then tokens text (place + 1)
    else
      match _ : tokenAt text place b with
      | .error fault => .error fault
      | .ok (token, stop) => (tokens text stop).map (⟨token, place⟩ :: ·)
termination_by text.utf8ByteSize - place
decreasing_by
  · have := lt_of_byteAt? ‹byteAt? text place = some b›
    omega
  · have := lt_of_byteAt? ‹byteAt? text place = some b›
    have := lt_of_tokenAt ‹byteAt? text place = some b›
      ‹tokenAt text place b = .ok (token, stop)›
    omega

end ByteLexer

end TestSelection
