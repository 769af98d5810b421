import Mathlib.Data.Nat.Digits.Defs
import TestSelection.Proofs.Decimal.Arithmetic
import TestSelection.Proofs.Decimal.Notation

/-!
The texts that are read as numbers, said without a reader. A numeral is a minus or none, digits, a
point with more digits or none, and a size letter or none. Its parts can be told apart by their
characters: a digit is neither the sign nor the point nor a letter, so reading cuts a numeral where
it was put together, and what can be cut that way is a numeral. The value is that of the digits in
the decimal system, times a power of 1024.
-/

namespace TestSelection.Decimal

/-- The size letters, each for one more factor of 1024 than the letter before it. -/
def sizeLetters : List Char := ['k', 'm', 'g', 't']

/-- A number as it is written. -/
structure Numeral where
  negative : Bool
  whole : List Char
  fraction : Option (List Char)
  letter : Option Char
  whole_digits : whole ≠ [] ∧ ∀ c ∈ whole, c.isDigit = true
  fraction_digits : ∀ digits ∈ fraction, digits ≠ [] ∧ ∀ c ∈ digits, c.isDigit = true
  letter_mem : ∀ c ∈ letter, c.toLower ∈ sizeLetters

namespace Numeral

def unsigned (n : Numeral) : List Char :=
  match n.fraction with
  | none => n.whole
  | some digits => n.whole ++ '.' :: digits

/-- The sign, the digits and the size letter. -/
def text (n : Numeral) : String :=
  String.ofList ((if n.negative then ['-'] else []) ++ n.unsigned ++ n.letter.toList)

/-- The number that digits stand for in the decimal system, the first one counting most. -/
def ofDigits (digits : List Char) : Nat := Nat.ofDigits 10 (digits.reverse.map Chars.digitValue)

/-- The number without its sign and its size letter. -/
def magnitude (n : Numeral) : ℚ :=
  match n.fraction with
  | none => ofDigits n.whole
  | some digits => ofDigits n.whole + (ofDigits digits : ℚ) / 10 ^ digits.length

/-- The power of 1024 that the size letter stands for. -/
def factor (n : Numeral) : Nat :=
  match n.letter with
  | none => 1
  | some c => 1024 ^ (sizeLetters.idxOf c.toLower + 1)

def value (n : Numeral) : ℚ := (if n.negative then -n.magnitude else n.magnitude) * n.factor

end Numeral

variable {s : List Char} {d : Decimal} {c : Char}

/-! ### Digits -/

theorem natOfDigits_eq_ofDigits (s : List Char) : Chars.natOfDigits s = Numeral.ofDigits s := by
  induction s using List.reverseRecOn with
  | nil => rfl
  | append_singleton s c ih =>
      rw [Numeral.ofDigits, List.reverse_append, List.reverse_singleton, List.singleton_append,
        List.map_cons, Nat.ofDigits_cons, ← Numeral.ofDigits, ← ih, Chars.natOfDigits,
        List.foldl_append, add_comm]
      rfl

/-- The digits of a numeral stand for a number of its magnitude. -/
theorem Numeral.exists_denotes (n : Numeral) :
    ∃ d, Denotes n.unsigned d ∧ d.toRat = n.magnitude := by
  have hwhole : isDigits n.whole = true := isDigits_iff.mpr n.whole_digits
  cases hfraction : n.fraction with
  | none =>
      refine ⟨ofInt (Chars.natOfDigits n.whole), ?_, ?_⟩
      · rw [unsigned, hfraction]
        exact .whole hwhole
      · rw [toRat_ofInt, natOfDigits_eq_ofDigits, Int.cast_natCast, magnitude, hfraction]
  | some digits =>
      have hdigits : isDigits digits = true := isDigits_iff.mpr (n.fraction_digits digits hfraction)
      refine ⟨⟨Chars.natOfDigits (n.whole ++ digits), digits.length⟩, ?_, ?_⟩
      · rw [unsigned, hfraction]
        exact .fraction hwhole hdigits
      · rw [magnitude, hfraction, toRat, Chars.natOfDigits_append, natOfDigits_eq_ofDigits,
          natOfDigits_eq_ofDigits]
        have hpower : (10 : ℚ) ^ digits.length ≠ 0 := by positivity
        push_cast
        rw [zpow_neg, zpow_natCast, ← div_eq_mul_inv, add_div, mul_div_cancel_right₀ _ hpower]

/-- What stands for a number without a sign is the digits of a numeral, whatever its sign and its
size letter are to be. -/
theorem Denotes.exists_numeral (h : Denotes s d) (negative : Bool) {letter : Option Char}
    (hletter : ∀ c ∈ letter, c.toLower ∈ sizeLetters) :
    ∃ n : Numeral, n.negative = negative ∧ n.letter = letter ∧ n.unsigned = s := by
  cases h with
  | whole h =>
      exact ⟨⟨negative, s, none, letter, isDigits_iff.mp h, nofun, hletter⟩, rfl, rfl,
        rfl⟩
  | @fraction whole digits hwhole hdigits =>
      have hfraction : ∀ ds ∈ some digits, ds ≠ [] ∧ ∀ c ∈ ds, c.isDigit = true := by
        rintro _ ⟨⟩
        exact isDigits_iff.mp hdigits
      exact ⟨⟨negative, whole, some digits, letter, isDigits_iff.mp hwhole, hfraction, hletter⟩,
        rfl, rfl, rfl⟩

/-! ### Reading -/

theorem readUnsigned?_eq_some_iff : readUnsigned? s = some d ↔ Denotes s d := by
  refine ⟨fun h => ?_, Denotes.readUnsigned?⟩
  rw [readUnsigned?] at h
  rcases Chars.cut_cases '.' s with ⟨-, hcut⟩ | ⟨whole, fraction, -, rfl, hcut⟩
  · rw [hcut] at h
    obtain ⟨hdigits, hd⟩ := Option.ite_none_right_eq_some.mp h
    obtain rfl := Option.some.inj hd
    exact .whole hdigits
  · rw [hcut] at h
    obtain ⟨hdigits, hd⟩ := Option.ite_none_right_eq_some.mp h
    obtain rfl := Option.some.inj hd
    obtain ⟨hwhole, hfraction⟩ := Bool.and_eq_true_iff.mp hdigits
    exact .fraction hwhole hfraction

/-- A minus in front changes the sign; nothing else may stand in front of the digits. -/
theorem readSigned?_eq_some_iff :
    readSigned? s = some d ↔ ∃ (negative : Bool) (t : List Char) (e : Decimal),
      s = (if negative then ['-'] else []) ++ t ∧ Denotes t e ∧ d = if negative then -e else e := by
  constructor
  · intro h
    cases s with
    | nil => exact ⟨false, [], d, rfl, readUnsigned?_eq_some_iff.mp h, rfl⟩
    | cons c s =>
        by_cases hminus : c = '-'
        · subst hminus
          obtain ⟨e, he, rfl⟩ := Option.map_eq_some_iff.mp h
          exact ⟨true, s, e, rfl, readUnsigned?_eq_some_iff.mp he, rfl⟩
        · rw [readSigned?] at h
          · exact ⟨false, c :: s, d, rfl, readUnsigned?_eq_some_iff.mp h, rfl⟩
          · exact fun rest heq => hminus (List.cons.inj heq).1
  · rintro ⟨negative, t, e, rfl, he, rfl⟩
    cases negative with
    | true => exact Option.map_eq_some_iff.mpr ⟨e, he.readUnsigned?, rfl⟩
    | false => exact (readSigned?_of_isDigit he.ends.2.1).trans he.readUnsigned?

/-- Only capital letters have another small letter. -/
theorem toLower_cases (c : Char) : c.toLower = c ∨ c.toLower.toNat = c.toNat + 32 := by
  unfold Char.toLower
  split
  · rename_i h
    have hlow : 65 ≤ c.toNat := UInt32.le_iff_toNat_le.mp h.1
    have hhigh : c.toNat ≤ 90 := UInt32.le_iff_toNat_le.mp h.2
    right
    change (c.val + 32).toNat = _
    rw [UInt32.toNat_add]
    change (c.toNat + 32) % _ = _
    omega
  · exact Or.inl rfl

theorem sizeFactor?_eq (c : Char) : sizeFactor? c =
    if c.toLower ∈ sizeLetters then some (1024 ^ (sizeLetters.idxOf c.toLower + 1)) else none := by
  fun_cases sizeFactor? c with
  | case9 =>
      rw [if_neg]
      intro hmem
      rcases toLower_cases c with hsame | hother
      · rw [hsame] at hmem
        simp_all [sizeLetters]
      · have hc : c = Char.ofNat (c.toLower.toNat - 32) := by
          rw [hother, Nat.add_sub_cancel, Char.ofNat_toNat]
        simp only [sizeLetters, List.mem_cons, List.not_mem_nil, or_false] at hmem
        rcases hmem with h | h | h | h <;> rw [h] at hc <;> contradiction
  | _ => rfl

theorem getLast?_of_readSigned? (h : readSigned? s = some d) :
    ∃ c, s.getLast? = some c ∧ c.isDigit = true := by
  obtain ⟨negative, t, e, rfl, he, -⟩ := readSigned?_eq_some_iff.mp h
  obtain ⟨hne, -, hlast⟩ := he.ends
  obtain ⟨c, hc⟩ := Option.isSome_iff_exists.mp (List.getLast?_isSome.mpr hne)
  refine ⟨c, ?_, hlast c hc⟩
  rw [List.getLast?_append, hc, Option.some_or]

/-- A letter behind the digits is the factor, and without one nothing is changed. -/
theorem readChars?_eq_some_iff : readChars? s = some d ↔ ∃ (letter : Option Char) (t : List Char)
    (e : Decimal), (∀ c ∈ letter, c.toLower ∈ sizeLetters) ∧ Chars.trim s = t ++ letter.toList ∧
      readSigned? t = some e ∧ d = e.times ((letter.bind sizeFactor?).getD 1) := by
  constructor
  · intro h
    simp only [readChars?] at h
    split at h
    · cases h
    · rename_i last front hreverse
      split at h
      · rename_i factor hfactor
        obtain ⟨e, he, rfl⟩ := Option.map_eq_some_iff.mp h
        refine ⟨some last, front.reverse, e, ?_, ?_, he, ?_⟩
        · rintro _ ⟨⟩
          rw [sizeFactor?_eq] at hfactor
          exact (Option.ite_none_right_eq_some.mp hfactor).1
        · rw [← List.reverse_reverse (Chars.trim s), hreverse, List.reverse_cons]
          rfl
        · rw [Option.bind_some, hfactor, Option.getD_some]
      · obtain ⟨e, he, rfl⟩ := Option.map_eq_some_iff.mp h
        exact ⟨none, Chars.trim s, e, by simp, (List.append_nil _).symm, he, rfl⟩
  · rintro ⟨letter, t, e, hletter, htrim, he, rfl⟩
    cases letter with
    | none =>
        obtain ⟨last, hlast, hdigit⟩ := getLast?_of_readSigned? he
        obtain ⟨front, rfl⟩ := List.getLast?_eq_some_iff.mp hlast
        have hreverse : (Chars.trim s).reverse = last :: front.reverse := by
          rw [htrim, Option.toList_none, List.append_nil, List.reverse_append]
          rfl
        simp only [readChars?, hreverse, sizeFactor?_of_isDigit hdigit]
        rw [htrim, Option.toList_none, List.append_nil, he]
        rfl
    | some last =>
        have hreverse : (Chars.trim s).reverse = last :: t.reverse := by
          rw [htrim, Option.toList_some, List.reverse_append]
          rfl
        obtain ⟨factor, hfactor⟩ : ∃ factor, sizeFactor? last = some factor := by
          rw [sizeFactor?_eq, if_pos (hletter last rfl)]
          exact ⟨_, rfl⟩
        simp only [readChars?, hreverse, hfactor, List.reverse_reverse, he]
        rw [Option.bind_some, hfactor]
        rfl

theorem Numeral.factor_eq (n : Numeral) : n.factor = (n.letter.bind sizeFactor?).getD 1 := by
  rw [factor]
  split
  · rename_i hletter
    rw [hletter]
    rfl
  · rename_i c hletter
    rw [hletter, Option.bind_some, sizeFactor?_eq, if_pos (n.letter_mem c hletter)]
    rfl

/-- Sign and size letter do to what the digits stand for what they do to the magnitude. -/
theorem Numeral.toRat_of_denotes (n : Numeral) (h : Denotes n.unsigned d) :
    ((if n.negative then -d else d).times ((n.letter.bind sizeFactor?).getD 1)).toRat
      = n.value := by
  obtain ⟨d', hd', hmagnitude⟩ := n.exists_denotes
  obtain rfl := Option.some.inj (h.readUnsigned?.symm.trans hd'.readUnsigned?)
  rw [toRat_times, ← factor_eq, value, ← hmagnitude]
  cases n.negative with
  | true => exact congrArg (· * _) (toRat_neg d)
  | false => rfl

/-- A text is read as a number exactly if, apart from blanks around it, it is a numeral, and the
number has the value that is written there. -/
theorem toRat_ofText?_eq_some_iff {text : String} {q : ℚ} :
    (ofText? text).map toRat = some q ↔ ∃ n : Numeral, Text.trim text = n.text ∧ n.value = q := by
  have htext (n : Numeral) : Text.trim text = n.text ↔ Chars.trim text.toList
      = (if n.negative then ['-'] else []) ++ n.unsigned ++ n.letter.toList := by
    rw [Text.trim, Numeral.text, String.ofList_inj]
  simp only [htext, Option.map_eq_some_iff, ofText?, readChars?_eq_some_iff,
    readSigned?_eq_some_iff]
  constructor
  · rintro ⟨_, ⟨letter, _, _, hletter, htrim, ⟨negative, t, d, rfl, hd, rfl⟩, rfl⟩, rfl⟩
    obtain ⟨n, rfl, rfl, rfl⟩ := hd.exists_numeral negative hletter
    exact ⟨n, htrim, (n.toRat_of_denotes hd).symm⟩
  · rintro ⟨n, htrim, rfl⟩
    obtain ⟨d, hd, -⟩ := n.exists_denotes
    exact ⟨_, ⟨n.letter, _, _, n.letter_mem, htrim, ⟨n.negative, _, d, rfl, hd, rfl⟩, rfl⟩,
      n.toRat_of_denotes hd⟩

end TestSelection.Decimal
