import TestSelection.Proofs.Expr.ByteLexer
import TestSelection.Proofs.Expr.Positions
import TestSelection.Proofs.Letters

/-!
The walk over bytes gives what the walk over characters gives. Each place that a part of the text is
cut at is next to an ASCII character or at an end, and an ASCII character is a byte that occurs in
no other one; so the walk never cuts inside a character, and its tests of single bytes find what
tests of characters find.
-/

namespace TestSelection

namespace ByteLexer

variable {text : String} {place : Nat} {b c : Char} {s t : List Char}

/-! ### Where characters start -/

/-- The characters from a place on, which is one between characters or at an end. -/
def Remains (text : String) (place : Nat) (s : List Char) : Prop :=
  ∃ before, text.toList = before ++ s ∧ Chars.byteSize before = place

theorem remains_toList (text : String) : Remains text 0 text.toList := ⟨[], rfl, rfl⟩

theorem Remains.skip (h : Remains text place (t ++ s)) :
    Remains text (place + Chars.byteSize t) s := by
  obtain ⟨before, htext, rfl⟩ := h
  exact ⟨before ++ t, by rw [htext, List.append_assoc], Chars.byteSize_append before t⟩

theorem Remains.tail (h : Remains text place (c :: s)) : Remains text (place + c.utf8Size) s := by
  have hskip : Remains text (place + Chars.byteSize [c]) s := Remains.skip (t := [c]) h
  rwa [Chars.byteSize_cons] at hskip

theorem Remains.tail_of_lt (h : Remains text place (c :: s)) (hc : c.toNat < 128) :
    Remains text (place + 1) s :=
  Chars.utf8Size_of_lt hc ▸ h.tail

theorem Remains.standsAt (h : Remains text place (t ++ s)) :
    Text.StandsAt text place (String.ofList t) := by
  obtain ⟨before, htext, rfl⟩ := h
  exact Text.standsAt_byteSize (by rw [htext, List.append_assoc])

theorem Remains.isValid (h : Remains text place s) : (⟨place⟩ : String.Pos.Raw).IsValid text :=
  Text.StandsAt.isValid (Remains.standsAt (t := []) h)

/-- What stands between two such places can be cut out. -/
theorem Remains.slice_eq (h : Remains text place (t ++ s)) :
    slice text place (place + Chars.byteSize t) = .ok (String.ofList t) := by
  have hstop := h.skip.isValid
  rw [slice, if_neg (not_not_intro h.isValid), if_neg (not_not_intro hstop)]
  obtain ⟨before, htext, rfl⟩ := h
  rw [Chars.byteSize_eq, Chars.byteSize_eq, ← String.ofList_toList (s := text), htext,
    ← List.append_assoc, String.extract_of_valid]

theorem Remains.byteAt?_add (h : Remains text place s) (k : Nat) :
    byteAt? text (place + k) = (Chars.utf8 s)[k]?.map Char.ofUInt8 := by
  obtain ⟨before, htext, rfl⟩ := h
  rw [byteAt?, Chars.getElem?_bytes, htext, Chars.utf8_append, ← Chars.length_utf8,
    List.getElem?_append_right (Nat.le_add_right _ _), Nat.add_sub_cancel_left]

theorem Remains.byteAt?_nil (h : Remains text place []) : byteAt? text place = none :=
  h.byteAt?_add 0

theorem Remains.byteAt?_of_lt (h : Remains text place (c :: s)) (hc : c.toNat < 128) :
    byteAt? text place = some c := by
  have hbyte := h.byteAt?_add 0
  rw [Chars.utf8, List.flatMap_cons, Chars.utf8EncodeChar_of_lt hc] at hbyte
  exact hbyte.trans (congrArg some (Chars.ofUInt8_of_lt hc))

/-- No byte of a character that is not an ASCII character is one. -/
theorem Remains.byteAt?_of_le (h : Remains text place (c :: s)) (hc : 128 ≤ c.toNat) {k : Nat}
    (hk : k < c.utf8Size) : ∃ b, byteAt? text (place + k) = some b ∧ 128 ≤ b.toNat := by
  have hlength : k < (String.utf8EncodeChar c).length := by rwa [String.length_utf8EncodeChar]
  have hbyte := h.byteAt?_add k
  rw [Chars.utf8, List.flatMap_cons, List.getElem?_append_left hlength,
    List.getElem?_eq_getElem hlength] at hbyte
  exact ⟨_, hbyte, Chars.le_of_mem_utf8EncodeChar hc _ (List.getElem_mem hlength)⟩

theorem Remains.byteAt?_cons (h : Remains text place (c :: s)) :
    c.toNat < 128 ∧ byteAt? text place = some c ∨
      128 ≤ c.toNat ∧ ∃ b, byteAt? text place = some b ∧ 128 ≤ b.toNat := by
  rcases Nat.lt_or_ge c.toNat 128 with hc | hc
  · exact Or.inl ⟨hc, h.byteAt?_of_lt hc⟩
  · exact Or.inr ⟨hc, h.byteAt?_of_le hc c.utf8Size_pos⟩

/-- A byte of ASCII is the character that starts at its place. -/
theorem Remains.byteAt?_eq_some_iff (h : Remains text place s) (hb : b.toNat < 128) :
    byteAt? text place = some b ↔ s.head? = some b := by
  cases s with
  | nil => rw [h.byteAt?_nil, List.head?_nil]
  | cons c s =>
      rw [List.head?_cons]
      rcases h.byteAt?_cons with ⟨-, hbyte⟩ | ⟨hc, d, hbyte, hd⟩
      · rw [hbyte]
      · rw [hbyte, Option.some_inj, Option.some_inj]
        constructor
        · rintro rfl
          omega
        · rintro rfl
          omega

/-! ### Agreement with the walk over characters -/

theorem eq_false_of_le {p : Char → Bool} (hp : ∀ c, p c = true → c.toNat < 128)
    (hc : 128 ≤ c.toNat) : p c = false :=
  Bool.eq_false_iff.mpr fun hpc => Nat.not_lt_of_le hc (hp c hpc)

/-- Bytes of ASCII are passed over one character each. -/
theorem Remains.skipWhile_eq {p : Char → Bool} (hp : ∀ c, p c = true → c.toNat < 128)
    (h : Remains text place s) :
    skipWhile text p place = place + Chars.byteSize (s.takeWhile p) := by
  induction s generalizing place with
  | nil =>
      rw [skipWhile]
      split
      · rfl
      · simp_all [h.byteAt?_nil]
  | cons c s ih =>
      rcases h.byteAt?_cons with ⟨hc, hbyte⟩ | ⟨hc, b, hbyte, hb⟩
      · have htail := h.tail_of_lt hc
        rw [skipWhile_of_some hbyte, List.takeWhile_cons]
        cases p c with
        | true =>
            rw [if_pos rfl, if_pos rfl, ih htail, Chars.byteSize_cons, Chars.utf8Size_of_lt hc,
              Nat.add_assoc]
        | false => rfl
      · have hpc : ¬ p c = true := by rw [eq_false_of_le hp hc]; exact Bool.false_ne_true
        rw [skipWhile_of_some hbyte, eq_false_of_le hp hb, List.takeWhile_cons_of_neg hpc]
        rfl

section Quoted

variable {opening piece : Nat} {content : String} {taken : List Char}

theorem quotedFrom_of_plain (h : byteAt? text place = some b) (hquote : b ≠ '"')
    (hescape : b = '\\' → ∀ e, byteAt? text (place + 1) = some e → e ≠ '"' ∧ e ≠ '\\') :
    quotedFrom text opening piece place content
      = quotedFrom text opening piece (place + 1) content := by
  rw [quotedFrom.eq_def]
  split
  · simp_all
  · rename_i b' hb'
    obtain rfl := Option.some.inj (h.symm.trans hb')
    rw [if_neg hquote]
    split
    · rename_i e he
      rw [if_neg]
      rintro ⟨hb, hquote | hbackslash⟩
      · exact (hescape hb e he).1 hquote
      · exact (hescape hb e he).2 hbackslash
    · rfl

theorem quotedFrom_of_le (k : Nat)
    (h : ∀ j < k, ∃ b, byteAt? text (place + j) = some b ∧ 128 ≤ b.toNat) :
    quotedFrom text opening piece place content
      = quotedFrom text opening piece (place + k) content := by
  induction k with
  | zero => rfl
  | succ k ih =>
      obtain ⟨b, hbyte, hb⟩ := h k (Nat.lt_succ_self k)
      have hascii : ∀ c : Char, c.toNat < 128 → b ≠ c := by
        rintro c hc rfl
        omega
      rw [ih fun j hj => h j (Nat.lt_succ_of_lt hj), ← Nat.add_assoc]
      exact quotedFrom_of_plain hbyte (hascii _ (by decide))
        fun heq => absurd heq (hascii _ (by decide))

/-- A character that neither is nor escapes a quote is passed over with all its bytes. -/
theorem Remains.quotedFrom_eq_tail (h : Remains text place (c :: s)) (hquote : c ≠ '"')
    (hescape : c = '\\' → ∀ d ∈ s.head?, d ≠ '"' ∧ d ≠ '\\') :
    quotedFrom text opening piece place content
      = quotedFrom text opening piece (place + c.utf8Size) content := by
  rcases h.byteAt?_cons with ⟨hc, hbyte⟩ | ⟨hc, -⟩
  · have htail := h.tail_of_lt hc
    rw [Chars.utf8Size_of_lt hc]
    refine quotedFrom_of_plain hbyte hquote fun hbackslash e he => ?_
    constructor
    · rintro rfl
      have hhead := (htail.byteAt?_eq_some_iff (by decide)).mp he
      exact (hescape hbackslash _ hhead).1 rfl
    · rintro rfl
      have hhead := (htail.byteAt?_eq_some_iff (by decide)).mp he
      exact (hescape hbackslash _ hhead).2 rfl
  · exact quotedFrom_of_le _ fun j hj => h.byteAt?_of_le hc hj

theorem Remains.escape (h : Remains text piece (taken ++ '\\' :: c :: s)) :
    Remains text (piece + Chars.byteSize (taken ++ ['\\', c])) ([] ++ s) :=
  Remains.skip (by simpa using h)

/-- An escape ends a piece. -/
theorem Remains.quotedFrom_escape (h : Remains text piece (taken ++ '\\' :: c :: s))
    (hc : c = '"' ∨ c = '\\') :
    quotedFrom text opening piece (piece + Chars.byteSize taken) content
      = quotedFrom text opening (piece + Chars.byteSize (taken ++ ['\\', c]))
          (piece + Chars.byteSize (taken ++ ['\\', c]))
          (content ++ String.ofList (taken ++ [c])) := by
  have hascii : c.toNat < 128 := by rcases hc with rfl | rfl <;> decide
  have hbyte := h.skip.byteAt?_of_lt (by decide)
  have hnext := h.skip.tail.byteAt?_of_lt hascii
  have hsize : Chars.byteSize (taken ++ ['\\', c]) = Chars.byteSize taken + 2 := by
    rw [Chars.byteSize_append, Chars.byteSize_cons, Chars.byteSize_cons,
      Chars.utf8Size_of_lt hascii]
    rfl
  rw [quotedFrom.eq_def]
  split
  · simp_all
  · rename_i b hb
    obtain rfl := Option.some.inj (hbyte.symm.trans hb)
    rw [if_neg (by decide)]
    split
    · rename_i e he
      obtain rfl := Option.some.inj (hnext.symm.trans he)
      rw [if_pos ⟨rfl, hc⟩, h.slice_eq, hsize, ← Nat.add_assoc, String.ofList_append,
        String.singleton_eq_ofList, ← String.append_assoc]
      rfl
    · rename_i hnone
      exact absurd (hnext.symm.trans hnone) (by simp)

/-- A quoted text is read to the quote that ends it, or not at all. -/
theorem Remains.quotedFrom_eq (h : Remains text piece (taken ++ s)) :
    quotedFrom text opening piece (piece + Chars.byteSize taken) content =
      match Token.quoted? s with
      | some (t, n) => .ok (content ++ String.ofList (taken ++ t),
          piece + Chars.byteSize (taken ++ s.take n))
      | none => .error (.refused (.unterminatedText opening)) := by
  fun_induction Token.quoted? s generalizing piece content taken with
  | case1 =>
      have hend := h.skip.byteAt?_nil
      rw [quotedFrom.eq_def]
      split
      · rfl
      · simp_all
  | case2 s =>
      have hquote := h.skip.byteAt?_of_lt (by decide)
      rw [quotedFrom.eq_def]
      split
      · simp_all
      · rename_i b hb
        obtain rfl := Option.some.inj (hquote.symm.trans hb)
        rw [if_pos rfl, h.slice_eq]
        change Except.ok (_, _) = Except.ok (_, piece + Chars.byteSize (taken ++ ['"']))
        rw [List.append_nil, Chars.byteSize_append, ← Nat.add_assoc]
        rfl
  | case3 s ih | case4 s ih =>
      rw [h.quotedFrom_escape (by simp)]
      refine (ih h.escape).trans ?_
      cases Token.quoted? s with
      | none => simp
      | some result => simp [String.append_assoc, Nat.add_assoc]
  | case5 c s hquote hescape hbackslash ih =>
      have hplain : c = '\\' → ∀ d ∈ s.head?, d ≠ '"' ∧ d ≠ '\\' := by
        rintro hc d hd
        obtain ⟨tail, rfl⟩ := List.head?_eq_some_iff.mp hd
        exact ⟨fun hd => hescape tail hc (by rw [hd]), fun hd => hbackslash tail hc (by rw [hd])⟩
      have hplace : piece + Chars.byteSize taken + c.utf8Size
          = piece + Chars.byteSize (taken ++ [c]) := by
        rw [Chars.byteSize_append, Chars.byteSize_cons, Chars.byteSize_nil, Nat.add_assoc,
          Nat.add_zero]
      rw [h.skip.quotedFrom_eq_tail hquote hplain, hplace]
      rw [List.append_cons] at h
      rw [ih h]
      cases Token.quoted? s with
      | none => rfl
      | some result => simp [List.append_assoc]

end Quoted

/-- The place behind the token that starts with a character. -/
def behind (place : Nat) (c : Char) (s : List Char) : Token × Nat → Token × Nat :=
  fun (token, more) => (token, place + Chars.byteSize (c :: s.take more))

theorem Remains.withEquals_eq (h : Remains text place (c :: s)) (hc : c.toNat < 128)
    (longer shorter : Token) :
    withEquals text longer shorter place
      = behind place c s (Token.withEquals longer shorter s) := by
  have htail := h.tail_of_lt hc
  rw [withEquals]
  by_cases hequals : byteAt? text (place + 1) = some '='
  · have hhead := (htail.byteAt?_eq_some_iff (by decide)).mp hequals
    obtain ⟨rest, rfl⟩ := List.head?_eq_some_iff.mp hhead
    rw [if_pos hequals, Token.withEquals, behind, List.take_succ_cons, List.take_zero,
      Chars.byteSize_cons, Chars.utf8Size_of_lt hc]
    rfl
  · have hother : ∀ d ∈ s.head?, (d == '=') = false := by
      intro d hd
      refine beq_eq_false_iff_ne.mpr fun heq => hequals ?_
      exact (htail.byteAt?_eq_some_iff (by decide)).mpr (heq ▸ hd)
    rw [if_neg hequals, Token.withEquals_of_source hother, behind, List.take_zero,
      Chars.byteSize_cons, Chars.utf8Size_of_lt hc]
    rfl

theorem toNat_of_continuesName (hc : Token.continuesName c = true) : c.toNat < 128 := by
  rcases Bool.or_eq_true_iff.mp hc with hword | hpoint
  · exact Chars.toNat_of_isWordChar hword
  · obtain rfl := beq_iff_eq.mp hpoint
    decide

/-- A run of characters that a token goes on with is cut out. -/
theorem Remains.slice_run {p : Char → Bool} (hp : ∀ c, p c = true → c.toNat < 128)
    (h : Remains text place (c :: s)) (hc : p c = true) :
    skipWhile text p place = place + Chars.byteSize (c :: s.takeWhile p) ∧
      slice text place (place + Chars.byteSize (c :: s.takeWhile p))
        = .ok (String.ofList (c :: s.takeWhile p)) := by
  constructor
  · rw [h.skipWhile_eq hp, List.takeWhile_cons_of_pos hc]
  · refine Remains.slice_eq (s := s.dropWhile p) ?_
    rwa [List.cons_append, List.takeWhile_append_dropWhile]

/-- The rest of the text is cut out, and its first character is shown. -/
theorem Remains.slice_end (h : Remains text place s) :
    slice text place text.utf8ByteSize = .ok (String.ofList s) := by
  have hslice : slice text place (place + Chars.byteSize s) = .ok (String.ofList s) :=
    Remains.slice_eq (s := []) (by rwa [List.append_nil])
  have hsize : place + Chars.byteSize s = text.utf8ByteSize := by
    obtain ⟨before, htext, rfl⟩ := h
    rw [← Chars.byteSize_append, ← htext, Chars.byteSize_toList]
  rwa [hsize] at hslice

theorem not_startsName_of_le (hc : 128 ≤ c.toNat) :
    c.isDigit = false ∧ Token.startsName c = false :=
  ⟨eq_false_of_le (fun _ hd => toNat_of_continuesName
      (Token.continuesName_of_continuesNumber (Token.continuesNumber_of_isDigit hd))) hc,
    eq_false_of_le (fun _ hd => toNat_of_continuesName (Token.continuesName_of_startsName hd)) hc⟩

/-- No token starts with a character that is not an ASCII character. -/
theorem read_of_le (hc : 128 ≤ c.toNat) :
    Token.read place c s = .error (.unexpected .token (String.singleton c) place) := by
  obtain ⟨hdigit, hname⟩ := not_startsName_of_le hc
  unfold Token.read
  split
  case h_15 => simp only [hdigit, hname, Bool.false_eq_true, if_false]
  all_goals exact absurd hc (by decide)

theorem tokenAt_of_le (h : Remains text place (c :: s)) (hb : 128 ≤ b.toNat) :
    tokenAt text place b =
      .error (.refused (.unexpected .token (String.singleton c) place)) := by
  obtain ⟨hdigit, hname⟩ := not_startsName_of_le hb
  unfold tokenAt
  split
  case h_15 =>
      simp only [hdigit, hname, Bool.false_eq_true, if_false, h.slice_end]
      simp [bind, Except.bind, throw, throwThe, MonadExceptOf.throw]
  all_goals exact absurd hb (by decide)

theorem read_equals (place : Nat) (s : List Char) :
    Token.read place '=' s = if s.head? = some '=' then .ok (.operator .eq, 1)
      else .error (.unexpected .doubleEquals "=" place) := by
  simp only [Token.read]
  split
  · rfl
  · rename_i hne
    rw [if_neg]
    intro hhead
    obtain ⟨rest, rfl⟩ := List.head?_eq_some_iff.mp hhead
    exact hne rest rfl

theorem read_quote (place : Nat) (s : List Char) :
    Token.read place '"' s = match Token.quoted? s with
      | some (t, n) => .ok (.text (String.ofList t), n)
      | none => .error (.unterminatedText place) := rfl

theorem Remains.equalsAt_eq (h : Remains text place ('=' :: s)) :
    tokenAt text place '=' =
      ((Token.read place '=' s).map (behind place '=' s)).mapError LexFault.refused := by
  have htail := h.tail_of_lt (by decide)
  change (if byteAt? text (place + 1) = some '=' then _ else _) = _
  rw [read_equals]
  by_cases hequals : byteAt? text (place + 1) = some '='
  · have hhead := (htail.byteAt?_eq_some_iff (by decide)).mp hequals
    obtain ⟨rest, rfl⟩ := List.head?_eq_some_iff.mp hhead
    rw [if_pos hequals, if_pos hhead]
    rfl
  · have hhead := mt (htail.byteAt?_eq_some_iff (by decide)).mpr hequals
    rw [if_neg hequals, if_neg hhead]
    rfl

theorem Remains.quotedAt_eq (h : Remains text place ('"' :: s)) :
    tokenAt text place '"' =
      ((Token.read place '"' s).map (behind place '"' s)).mapError LexFault.refused := by
  have hstart : Remains text (place + 1) ([] ++ s) := h.tail_of_lt (by decide)
  have hquoted : quotedFrom text place (place + 1) (place + 1) "" = _ := hstart.quotedFrom_eq
  change (quotedFrom text place (place + 1) (place + 1) "" >>= _) = _
  rw [hquoted, read_quote]
  cases hs : Token.quoted? s with
  | none => rfl
  | some result =>
      have hplace : place + 1 + Chars.byteSize (s.take result.2)
          = place + Chars.byteSize ('"' :: s.take result.2) := by
        rw [Nat.add_assoc, Chars.byteSize_cons]
        rfl
      change Except.ok (Token.text ("" ++ String.ofList ([] ++ result.1)),
        place + 1 + Chars.byteSize ([] ++ s.take result.2)) = _
      rw [List.nil_append, List.nil_append, String.empty_append, hplace]
      rfl

/-- The same token is read from the bytes. -/
theorem Remains.tokenAt_eq (h : Remains text place (c :: s)) (hbyte : byteAt? text place = some b) :
    tokenAt text place b =
      ((Token.read place c s).map (behind place c s)).mapError LexFault.refused := by
  rcases h.byteAt?_cons with ⟨hc, hbyte'⟩ | ⟨hc, b', hbyte', hb⟩
  · obtain rfl := Option.some.inj (hbyte'.symm.trans hbyte)
    unfold tokenAt
    split
    case h_10 | h_11 | h_12 =>
        rw [h.withEquals_eq (by decide)]
        rfl
    case h_13 => exact h.equalsAt_eq
    case h_14 => exact h.quotedAt_eq
    case h_15 =>
        rw [Token.read]
        all_goals try assumption
        have htake : ∀ p, s.take (s.takeWhile p).length = s.takeWhile p := fun p =>
          (List.prefix_iff_eq_take.mp (List.takeWhile_prefix p)).symm
        by_cases hdigit : c.isDigit = true
        · obtain ⟨hskip, hslice⟩ := h.slice_run
            (fun _ hd => toNat_of_continuesName (Token.continuesName_of_continuesNumber hd))
            (Token.continuesNumber_of_isDigit hdigit)
          simp only [hdigit, if_true, hskip, hslice, Except.map, behind, htake]
          rfl
        · by_cases hname : Token.startsName c = true
          · obtain ⟨hskip, hslice⟩ := h.slice_run (fun _ => toNat_of_continuesName)
              (Token.continuesName_of_startsName hname)
            simp only [hdigit, hname, Bool.false_eq_true, if_true, if_false, hskip, hslice,
              Except.map, behind, htake]
            rfl
          · simp only [hdigit, hname, Bool.false_eq_true, if_false, h.slice_end]
            simp [bind, Except.bind, throw, throwThe, MonadExceptOf.throw, Except.map,
              Except.mapError]
    all_goals rfl
  · obtain rfl := Option.some.inj (hbyte'.symm.trans hbyte)
    rw [read_of_le hc, tokenAt_of_le h hb]
    rfl

theorem tokens_of_none (h : byteAt? text place = none) : tokens text place = .ok [] := by
  rw [tokens]
  split <;> simp_all

theorem tokens_of_some (h : byteAt? text place = some b) : tokens text place =
    if Token.isGap b then tokens text (place + 1)
    else tokenAt text place b >>= fun (token, stop) =>
      (tokens text stop).map (⟨token, place⟩ :: ·) := by
  rw [tokens]
  split
  · simp_all
  · rename_i b' hb'
    obtain rfl := Option.some.inj (h.symm.trans hb')
    split
    · rfl
    · split <;> simp_all [bind, Except.bind]

theorem toNat_of_isGap (hc : Token.isGap c = true) : c.toNat < 128 := by
  rcases Token.isGap_iff.mp hc with rfl | rfl | rfl | rfl <;> decide

/-- The first byte of a character separates tokens exactly if the character does. -/
theorem Remains.exists_byteAt? (h : Remains text place (c :: s)) :
    ∃ b, byteAt? text place = some b ∧ Token.isGap b = Token.isGap c := by
  rcases h.byteAt?_cons with ⟨-, hbyte⟩ | ⟨hc, b, hbyte, hb⟩
  · exact ⟨c, hbyte, rfl⟩
  · have hgap : ∀ d : Char, Token.isGap d = true → d.toNat < 128 := fun _ => toNat_of_isGap
    exact ⟨b, hbyte, (eq_false_of_le hgap hb).trans (eq_false_of_le hgap hc).symm⟩

/-- The walk over the bytes is the one over the characters. -/
theorem Remains.tokens_eq (h : Remains text place s) :
    tokens text place = (LocatedToken.readAll place 0 s).mapError LexFault.refused := by
  induction hn : s.length using Nat.strong_induction_on generalizing place s with
  | _ n ih =>
      cases s with
      | nil => rw [tokens_of_none h.byteAt?_nil]; rfl
      | cons c s =>
          rw [List.length_cons] at hn
          obtain ⟨b, hbyte, hgap⟩ := h.exists_byteAt?
          rw [tokens_of_some hbyte, LocatedToken.readAll, hgap]
          by_cases hc : Token.isGap c = true
          · have htail := h.tail_of_lt (toNat_of_isGap hc)
            rw [if_pos hc, if_pos hc, Chars.utf8Size_of_lt (toNat_of_isGap hc)]
            exact ih s.length (by omega) htail rfl
          · rw [if_neg hc, if_neg hc, h.tokenAt_eq hbyte]
            cases hread : Token.read place c s with
            | error error => rfl
            | ok result =>
                obtain ⟨token, more⟩ := result
                obtain ⟨t, rest, rfl, rfl, -⟩ := Token.read_eq_ok.mp hread
                rw [List.length_append] at hn
                have hrest : Remains text (place + Chars.byteSize (c :: t)) rest := h.skip
                have hlater := ih rest.length (by omega) hrest rfl
                have hstop : (t ++ rest).take t.length = t := List.take_left
                change (tokens text (place + Chars.byteSize (c :: (t ++ rest).take t.length))).map
                    (⟨token, place⟩ :: ·) =
                  (LocatedToken.readAll (place + c.utf8Size) t.length (t ++ rest) >>=
                    fun rest => return ⟨token, place⟩ :: rest).mapError LexFault.refused
                rw [hstop, hlater, LocatedToken.readAll_length_append, Nat.add_assoc,
                  ← Chars.byteSize_cons]
                cases LocatedToken.readAll (place + Chars.byteSize (c :: t)) 0 rest <;> rfl

end ByteLexer

namespace Expr

/-- Reading a text never cuts inside a character: the walk over its bytes gives the tokens or the
error. Tokens are found in the order of the text, with nothing but gaps between and around their
sources, and an error points to a place of the text where what it shows stands. -/
theorem positions_in_text (text : String) :
    ByteLexer.tokens text 0 = (LocatedToken.ofText text).mapError .refused ∧
    (∀ tokens, LocatedToken.ofText text = .ok tokens →
      LocatedToken.Tiles 0 text.toList tokens ∧
        tokens.Pairwise fun t u => t.position < u.position) ∧
    ∀ error, parse text = .error error → error.PointsInto text := by
  refine ⟨(ByteLexer.remains_toList text).tokens_eq, fun tokens h => ?_, fun error h => ?_⟩
  · have htiles := LocatedToken.tiles_of_readAll h
    exact ⟨htiles, htiles.position_lt⟩
  · exact SyntaxError.pointsInto_of_parse h

/-- A character of two bytes counts as two in the places behind it. -/
theorem positions_in_text_quoted :
    let text := "\"é\" == os.arch"
    let tokens : List LocatedToken :=
      [⟨.text "é", 0⟩, ⟨.operator .eq, 5⟩, ⟨.name "os.arch", 8⟩]
    let broken := "(\"é\" \"ü\""
    let error := SyntaxError.unexpected .closingParenthesis "\"ü\"" 6
    LocatedToken.ofText text = .ok tokens ∧ LocatedToken.Tiles 0 text.toList tokens ∧
      ByteLexer.tokens broken 0
        = .ok [⟨.openParen, 0⟩, ⟨.text "é", 1⟩, ⟨.text "ü", 6⟩] ∧
      parse broken = .error error ∧ error.PointsInto broken := by
  intro text tokens broken error
  have htext : LocatedToken.ofText text = .ok tokens := by decide +kernel
  have hbroken : LocatedToken.ofText broken
      = .ok [⟨.openParen, 0⟩, ⟨.text "é", 1⟩, ⟨.text "ü", 6⟩] := by decide +kernel
  have herror : parse broken = .error error := by decide +kernel
  obtain ⟨-, htiles, -⟩ := positions_in_text text
  obtain ⟨hwalk, -, hpoints⟩ := positions_in_text broken
  rw [hbroken] at hwalk
  exact ⟨htext, (htiles tokens htext).1, hwalk, herror, hpoints error herror⟩

end Expr

end TestSelection
