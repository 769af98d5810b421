import Mathlib.Data.String.Basic
import TestSelection.Text

/-!
The UTF-8 form of a text. An ASCII character is a byte of its own, and all bytes of any other
character are above those. What stands before a character is a text of its own, and the number of
its bytes is the place where the character starts.
-/

namespace TestSelection

namespace Chars

variable {s t : List Char} {c : Char}

theorem byteSize_eq (s : List Char) : byteSize s = String.utf8Len s := by
  have hfold : ∀ n, s.foldl (fun n c => n + c.utf8Size) n = n + String.utf8Len s := by
    induction s with
    | nil => exact fun _ => rfl
    | cons c s ih =>
        intro n
        rw [List.foldl_cons, ih, String.utf8Len_cons]
        omega
  rw [byteSize, hfold, Nat.zero_add]

@[simp] theorem byteSize_nil : byteSize [] = 0 := rfl

@[simp] theorem byteSize_cons (c : Char) (s : List Char) :
    byteSize (c :: s) = c.utf8Size + byteSize s := by
  rw [byteSize_eq, byteSize_eq, String.utf8Len_cons, Nat.add_comm]

@[simp] theorem byteSize_append (s t : List Char) :
    byteSize (s ++ t) = byteSize s + byteSize t := by
  rw [byteSize_eq, byteSize_eq, byteSize_eq, String.utf8Len_append]

@[simp] theorem byteSize_toList (s : String) : byteSize s.toList = s.utf8ByteSize := by
  rw [byteSize_eq, ← String.utf8ByteSize_ofList, String.ofList_toList]

theorem byteSize_pos (h : s ≠ []) : 0 < byteSize s := by
  obtain ⟨c, t, rfl⟩ := List.exists_cons_of_ne_nil h
  rw [byteSize_cons]
  exact Nat.add_pos_left c.utf8Size_pos _

/-- The bytes of the UTF-8 form. -/
def utf8 (s : List Char) : List UInt8 := s.flatMap String.utf8EncodeChar

theorem length_utf8 (s : List Char) : (utf8 s).length = byteSize s := by
  induction s with
  | nil => rfl
  | cons c s ih =>
      rw [utf8, List.flatMap_cons, List.length_append, ← utf8, ih, String.length_utf8EncodeChar,
        byteSize_cons]

theorem utf8_append (s t : List Char) : utf8 (s ++ t) = utf8 s ++ utf8 t := List.flatMap_append

theorem utf8EncodeChar_of_lt (h : c.toNat < 128) :
    String.utf8EncodeChar c = [UInt8.ofNat c.toNat] := by
  rw [String.utf8EncodeChar]
  exact if_pos (Nat.le_of_lt_succ h)

theorem utf8Size_of_lt (h : c.toNat < 128) : c.utf8Size = 1 := by
  rw [← String.length_utf8EncodeChar, utf8EncodeChar_of_lt h, List.length_singleton]

theorem ofUInt8_of_lt (h : c.toNat < 128) : Char.ofUInt8 (UInt8.ofNat c.toNat) = c := by
  apply Char.toNat_inj.mp
  change (UInt8.ofNat c.toNat).toNat = c.toNat
  rw [UInt8.toNat_ofNat']
  omega

theorem le_of_mem_utf8EncodeChar (h : 128 ≤ c.toNat) :
    ∀ b ∈ String.utf8EncodeChar c, 128 ≤ b.toNat := by
  intro b hb
  have hc : ¬ c.val.toNat ≤ 127 := Nat.not_le.mpr h
  simp only [String.utf8EncodeChar, if_neg hc] at hb
  split at hb
  · simp only [List.mem_cons, List.not_mem_nil, or_false] at hb
    rcases hb with rfl | rfl <;> simp only [UInt8.toNat_ofNat'] <;> omega
  · split at hb
    · simp only [List.mem_cons, List.not_mem_nil, or_false] at hb
      rcases hb with rfl | rfl | rfl <;> simp only [UInt8.toNat_ofNat'] <;> omega
    · simp only [List.mem_cons, List.not_mem_nil, or_false] at hb
      rcases hb with rfl | rfl | rfl | rfl <;> simp only [UInt8.toNat_ofNat'] <;> omega

theorem getElem?_toByteArray (l : List UInt8) (i : Nat) : l.toByteArray[i]? = l[i]? := by
  by_cases h : i < l.length
  · have hsize : i < l.toByteArray.size := by simpa using h
    rw [getElem?_pos l.toByteArray i hsize, List.getElem?_eq_getElem h,
      ByteArray.getElem_eq_getElem_data]
    simp
  · have hsize : ¬ i < l.toByteArray.size := by simpa using h
    rw [getElem?_neg l.toByteArray i hsize, List.getElem?_eq_none (Nat.le_of_not_lt h)]

theorem getElem?_bytes (text : String) (i : Nat) :
    text.toByteArray[i]? = (utf8 text.toList)[i]? := by
  rw [← getElem?_toByteArray, utf8, ← List.utf8Encode, ← String.toByteArray_ofList,
    String.ofList_toList]

end Chars

end TestSelection
