import TestSelection.Proofs.Cuts
import TestSelection.Proofs.Decimal.Value

/-!
Numbers that are read as they are written. A number without a sign is digits alone or digits with a
point among them. It starts and ends with a digit, so that neither a blank nor a sign nor a size
letter is seen in it. What is written plainly stands for a number with the same value.
-/

namespace TestSelection.Decimal

/-- Digits, with or without a point and further digits, and the number that they stand for. -/
inductive Denotes : List Char → Decimal → Prop
  | whole {s : List Char} (h : isDigits s = true) : Denotes s (ofInt (Chars.natOfDigits s))
  | fraction {s t : List Char} (hs : isDigits s = true) (ht : isDigits t = true) :
      Denotes (s ++ '.' :: t) ⟨Chars.natOfDigits (s ++ t), t.length⟩

theorem isDigits_iff {s : List Char} :
    isDigits s = true ↔ s ≠ [] ∧ ∀ c ∈ s, c.isDigit = true := by
  simp [isDigits]

variable {s t : List Char} {d : Decimal} {c : Char}

/-! ### Reading -/

theorem ne_point_of_isDigit (h : c.isDigit = true) : (c == '.') = false := by
  rw [beq_eq_false_iff_ne]
  rintro rfl
  exact absurd h (by decide)

theorem sizeFactor?_of_isDigit (h : c.isDigit = true) : sizeFactor? c = none := by
  fun_cases sizeFactor? c with
  | case9 => rfl
  | _ => exact absurd h (by decide)

theorem isBlank_of_isDigit (h : c.isDigit = true) : Chars.isBlank c = false := by
  obtain ⟨hlow, hhigh⟩ := Chars.toNat_of_isDigit h
  simp only [Chars.isBlank, Bool.or_eq_false_iff, Bool.and_eq_false_iff, decide_eq_false_iff_not]
  omega

theorem trim_of_isDigit (hfirst : ∀ c ∈ s.head?, c.isDigit = true)
    (hlast : ∀ c ∈ s.getLast?, c.isDigit = true) : Chars.trim s = s :=
  Chars.trim_of_ends (fun c hc => isBlank_of_isDigit (hfirst c hc))
    fun c hc => isBlank_of_isDigit (hlast c hc)

theorem readSigned?_of_isDigit (hfirst : ∀ c ∈ s.head?, c.isDigit = true) :
    readSigned? s = readUnsigned? s := by
  rw [readSigned?]
  rintro rest rfl
  exact absurd (hfirst '-' rfl) (by decide)

theorem readChars?_of_isDigit (hne : s ≠ []) (hfirst : ∀ c ∈ s.head?, c.isDigit = true)
    (hlast : ∀ c ∈ s.getLast?, c.isDigit = true) :
    readChars? s = (readUnsigned? s).map (·.times 1) := by
  obtain ⟨last, front, hreverse⟩ := List.exists_cons_of_ne_nil (List.reverse_ne_nil_iff.mpr hne)
  have hdigit : last.isDigit = true := hlast last (by rw [← List.head?_reverse, hreverse]; rfl)
  simp only [readChars?, trim_of_isDigit hfirst hlast, hreverse, sizeFactor?_of_isDigit hdigit,
    readSigned?_of_isDigit hfirst]

theorem Denotes.readUnsigned? (h : Denotes s d) : readUnsigned? s = some d := by
  cases h with
  | whole h =>
      have hpoint : ∀ c ∈ s, (!(c == '.')) = true :=
        fun c hc => by rw [ne_point_of_isDigit ((isDigits_iff.mp h).2 c hc)]; rfl
      have hcut : Chars.cut '.' s = none := by
        rw [Chars.cut, Chars.cutBy, List.dropWhile_eq_nil_iff.mpr hpoint]
      rw [Decimal.readUnsigned?, hcut]
      exact if_pos h
  | @fraction s t hs ht =>
      have hpoint : ∀ c ∈ s, (!(c == '.')) = true :=
        fun c hc => by rw [ne_point_of_isDigit ((isDigits_iff.mp hs).2 c hc)]; rfl
      have hcut : Chars.cut '.' (s ++ '.' :: t) = some (s, t) := by
        rw [Chars.cut, Chars.cutBy, List.dropWhile_append_of_pos hpoint,
          List.takeWhile_append_of_pos hpoint]
        simp
      rw [Decimal.readUnsigned?, hcut]
      simp [hs, ht]

theorem Denotes.ends (h : Denotes s d) :
    s ≠ [] ∧ (∀ c ∈ s.head?, c.isDigit = true) ∧ ∀ c ∈ s.getLast?, c.isDigit = true := by
  cases h with
  | whole h =>
      obtain ⟨hne, hdigits⟩ := isDigits_iff.mp h
      exact ⟨hne, fun c hc => hdigits c (List.mem_of_mem_head? hc),
        fun c hc => hdigits c (List.mem_of_mem_getLast? hc)⟩
  | @fraction s t hs ht =>
      obtain ⟨hne, hdigits⟩ := isDigits_iff.mp hs
      obtain ⟨hne', hdigits'⟩ := isDigits_iff.mp ht
      have hfirst : (s ++ '.' :: t).head? = some (s.head hne) := by
        rw [List.head?_append, List.head?_eq_some_head hne, Option.some_or]
      have hlast : (s ++ '.' :: t).getLast? = some (t.getLast hne') := by
        rw [List.getLast?_append, List.getLast?_cons, List.getLast?_eq_some_getLast hne',
          Option.getD_some, Option.some_or]
      rw [hfirst, hlast]
      refine ⟨by simp, ?_, ?_⟩
      · rintro _ ⟨⟩
        exact hdigits _ (List.head_mem hne)
      · rintro _ ⟨⟩
        exact hdigits' _ (List.getLast_mem hne')

theorem Denotes.isDigit_or_eq (h : Denotes s d) : ∀ c ∈ s, c.isDigit = true ∨ c = '.' := by
  intro c hc
  cases h with
  | whole h => exact Or.inl ((isDigits_iff.mp h).2 c hc)
  | fraction hs ht =>
      rcases List.mem_append.mp hc with hc | hc
      · exact Or.inl ((isDigits_iff.mp hs).2 c hc)
      · rcases List.mem_cons.mp hc with rfl | hc
        · exact Or.inr rfl
        · exact Or.inl ((isDigits_iff.mp ht).2 c hc)

/-- A text that stands for a number is read as one of the same value. -/
theorem Denotes.readChars? (h : Denotes s d) : Decimal.readChars? s = some (d.times 1) := by
  obtain ⟨hne, hfirst, hlast⟩ := h.ends
  rw [readChars?_of_isDigit hne hfirst hlast, h.readUnsigned?]
  rfl

/-! ### Signs -/

theorem readUnsigned?_nonneg (h : Decimal.readUnsigned? s = some d) : 0 ≤ d.unscaled := by
  rw [Decimal.readUnsigned?] at h
  split at h
  · obtain ⟨-, hd⟩ := Option.ite_none_right_eq_some.mp h
    obtain rfl := Option.some.inj hd
    exact Int.natCast_nonneg _
  · obtain ⟨-, hd⟩ := Option.ite_none_right_eq_some.mp h
    obtain rfl := Option.some.inj hd
    exact Int.natCast_nonneg _

theorem readSigned?_nonneg (hminus : '-' ∉ s) (h : readSigned? s = some d) : 0 ≤ d.unscaled := by
  rw [readSigned?] at h
  · exact readUnsigned?_nonneg h
  · rintro rest rfl
    exact hminus List.mem_cons_self

theorem times_nonneg (h : 0 ≤ d.unscaled) (factor : Nat) : 0 ≤ (d.times factor).unscaled := by
  rw [times]
  split
  · exact Int.natCast_nonneg _
  · exact Int.mul_nonneg h (Int.natCast_nonneg _)

/-- Without a minus sign there are no negative numbers. -/
theorem readChars?_nonneg (hminus : '-' ∉ s) (h : Decimal.readChars? s = some d) :
    0 ≤ d.unscaled := by
  have htrim : '-' ∉ Chars.trim s := fun hmem => hminus (Chars.mem_of_mem_trim hmem)
  simp only [Decimal.readChars?] at h
  split at h
  · exact nomatch h
  · rename_i last front hreverse
    have hfront : '-' ∉ front.reverse := by
      intro hmem
      have hlast : '-' ∈ last :: front := List.mem_cons_of_mem _ (List.mem_reverse.mp hmem)
      exact htrim (List.mem_reverse.mp (hreverse ▸ hlast))
    split at h
    · obtain ⟨d', hd', rfl⟩ := Option.map_eq_some_iff.mp h
      exact times_nonneg (readSigned?_nonneg hfront hd') _
    · obtain ⟨d', hd', rfl⟩ := Option.map_eq_some_iff.mp h
      exact times_nonneg (readSigned?_nonneg htrim hd') _

/-! ### Writing -/

theorem isDigits_repr (n : Nat) : isDigits (Nat.repr n).toList = true :=
  isDigits_iff.mpr ⟨Chars.toList_repr_ne_nil n, fun _ => Chars.isDigit_of_mem_repr⟩

theorem isDigits_append (hs : isDigits s = true) (ht : ∀ c ∈ t, c.isDigit = true) :
    isDigits (s ++ t) = true := by
  obtain ⟨hne, hdigits⟩ := isDigits_iff.mp hs
  refine isDigits_iff.mpr ⟨List.append_ne_nil_of_left_ne_nil hne t, fun c hc => ?_⟩
  rcases List.mem_append.mp hc with hc | hc
  · exact hdigits c hc
  · exact ht c hc

theorem isDigit_of_mem_replicate {k : Nat} (h : c ∈ List.replicate k '0') : c.isDigit = true := by
  obtain ⟨-, rfl⟩ := List.mem_replicate.mp h
  rfl

/-- Zeros appended to digits. -/
theorem denotes_zeros (n k : Nat) :
    ∃ d, Denotes ((Nat.repr n).toList ++ List.replicate k '0') d ∧
      d.toRat = (⟨n, -k⟩ : Decimal).toRat := by
  refine ⟨_, .whole (isDigits_append (isDigits_repr n) fun _ => isDigit_of_mem_replicate), ?_⟩
  rw [Chars.natOfDigits_append, Chars.natOfDigits_repr, Chars.natOfDigits_replicate_zero,
    List.length_replicate, Nat.add_zero, ← zero_sub, ← toRat_mul_tenPower, ofInt, Nat.cast_mul]
  rfl

/-- A point placed among digits. -/
theorem denotes_placePoint (n : Nat) {scale : Nat} (hscale : 0 < scale) :
    ∃ d, Denotes (placePoint (Nat.repr n).toList scale) d ∧
      d.toRat = (⟨n, scale⟩ : Decimal).toRat := by
  let digits := (Nat.repr n).toList
  let padded := List.replicate (scale + 1 - digits.length) '0' ++ digits
  let whole := padded.length - scale
  have hplace : placePoint digits scale = padded.take whole ++ '.' :: padded.drop whole :=
    if_neg hscale.ne'
  have hlength : scale < padded.length := by
    simp only [padded, List.length_append, List.length_replicate]
    omega
  have hdigits : ∀ c ∈ padded, c.isDigit = true := by
    intro c hc
    rcases List.mem_append.mp hc with hc | hc
    · exact isDigit_of_mem_replicate hc
    · exact Chars.isDigit_of_mem_repr hc
  have hfront : isDigits (padded.take whole) = true := by
    refine isDigits_iff.mpr ⟨?_, fun c hc => hdigits c (List.mem_of_mem_take hc)⟩
    rw [Ne, ← List.length_eq_zero_iff, List.length_take]
    omega
  have hback : (padded.drop whole).length = scale := by
    rw [List.length_drop]
    omega
  have hfraction : isDigits (padded.drop whole) = true := by
    refine isDigits_iff.mpr ⟨?_, fun c hc => hdigits c (List.mem_of_mem_drop hc)⟩
    rw [Ne, ← List.length_eq_zero_iff, hback]
    exact hscale.ne'
  have hvalue : Chars.natOfDigits padded = n := by
    rw [Chars.natOfDigits_append, Chars.natOfDigits_replicate_zero, zero_mul, zero_add]
    exact Chars.natOfDigits_repr n
  have hdenotes := Denotes.fraction hfront hfraction
  rw [← hplace, List.take_append_drop, hvalue, hback] at hdenotes
  exact ⟨_, hdenotes, rfl⟩

/-- What is written plainly stands for a number with the same value. -/
theorem exists_denotes_plain (h : 0 ≤ d.unscaled) :
    ∃ d', Denotes d.plain.toList d' ∧ d'.toRat = d.toRat := by
  have hnonneg : ¬ d.strip.unscaled < 0 := not_lt.mpr (strip_nonneg h)
  have hnatAbs : ((d.strip.unscaled.natAbs : Nat) : Int) = d.strip.unscaled :=
    Int.natAbs_of_nonneg (strip_nonneg h)
  simp only [plain, if_neg hnonneg, List.nil_append, String.toList_ofList]
  rw [← toRat_strip d]
  split
  · rename_i hscale
    obtain ⟨d', hd', hvalue⟩ := denotes_zeros d.strip.unscaled.natAbs (-d.strip.scale).toNat
    refine ⟨d', hd', hvalue.trans ?_⟩
    rw [hnatAbs, Int.toNat_of_nonneg (by omega), neg_neg]
  · rename_i hscale
    have hpos : 0 < d.strip.scale.toNat := by omega
    obtain ⟨d', hd', hvalue⟩ := denotes_placePoint d.strip.unscaled.natAbs hpos
    refine ⟨d', hd', hvalue.trans ?_⟩
    rw [hnatAbs, Int.toNat_of_nonneg (by omega)]

end TestSelection.Decimal
