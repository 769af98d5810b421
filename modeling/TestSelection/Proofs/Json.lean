import TestSelection.Json.Document
import TestSelection.Proofs.Cuts
import TestSelection.Text.Quoted

/-!
JSON that is written without blanks. Quoted characters are read back one by one, members of an
object one after the other, and no line feed is left in what is written.
-/

namespace TestSelection.Json

variable {turns rest : List Char}

/-! ### Quoted texts -/

theorem hexValue?_hexDigit {n : Nat} (h : n < 16) : Toml.hexValue? (Text.hexDigit n) = some n := by
  revert n
  decide

/-- A control character is read back from its number. -/
theorem escape_number {c : Char} (hcontrol : c.toNat < 32) :
    escape ('u' :: '0' :: '0' :: Text.hexDigit (c.toNat / 16) ::
      Text.hexDigit (c.toNat % 16) :: rest) = some (c, rest) := by
  have hzero : Toml.hexValue? '0' = some 0 := by decide
  have hdigits : fourDigits ('0' :: '0' :: Text.hexDigit (c.toNat / 16) ::
      Text.hexDigit (c.toNat % 16) :: rest) = some (c.toNat, rest) := by
    have hhigh : c.toNat / 16 < 16 := by omega
    have hlow : c.toNat % 16 < 16 := Nat.mod_lt _ (by decide)
    simp [fourDigits, hzero, hexValue?_hexDigit hhigh, hexValue?_hexDigit hlow, Nat.div_add_mod]
  have hhalf : isHighHalf c.toNat = false ∧ isLowHalf c.toNat = false := by
    simp only [isHighHalf, isLowHalf, Bool.and_eq_false_iff, decide_eq_false_iff_not]
    omega
  simp [escape, numberedChar, hdigits, hhalf]

theorem text_escape {s : List Char} {c turn : Char} (h : escape s = some (c, rest)) :
    text (turn :: turns) ('\\' :: s) = Toml.withChar c (text turns rest) := by
  rw [text, h]

/-- A quoted character is read back by itself. -/
theorem text_quotedChar (c turn : Char) :
    text (turn :: turns) (Text.quotedChar c ++ rest) = Toml.withChar c (text turns rest) := by
  fun_cases Text.quotedChar c with
  | case8 _ _ _ _ _ _ _ _ hcontrol =>
      exact text_escape (escape_number hcontrol)
  | case9 _ hquote hbackslash _ _ _ _ _ hcontrol =>
      rw [List.singleton_append, text, if_neg hcontrol]
      · exact hquote
      · exact hbackslash
  | _ => rfl

/-- A quoted text is read back up to its closing quote. -/
theorem text_quoted (s : List Char) (h : s.length < turns.length) :
    text turns (s.flatMap Text.quotedChar ++ '"' :: rest) = some (s, rest) := by
  induction s generalizing turns with
  | nil =>
      obtain ⟨turn, turns, rfl⟩ := List.exists_cons_of_length_pos h
      rfl
  | cons c s ih =>
      obtain ⟨turn, turns, rfl⟩ := List.exists_cons_of_length_pos (Nat.zero_lt_of_lt h)
      rw [List.flatMap_cons, List.append_assoc, text_quotedChar, ih (Nat.lt_of_succ_lt_succ h)]
      rfl

/-! ### Objects of texts -/

/-- The text of a member of an object. -/
def memberChars (m : String × String) : List Char :=
  (Text.quoted m.1 ++ ":" ++ Text.quoted m.2).toList

theorem toList_quoted (s : String) :
    (Text.quoted s).toList = '"' :: (s.toList.flatMap Text.quotedChar ++ ['"']) := by
  rw [Text.quoted, String.toList_ofList]
  rfl

theorem length_le_length_flatMap_quotedChar (s : List Char) :
    s.length ≤ (s.flatMap Text.quotedChar).length := by
  induction s with
  | nil => exact Nat.le_refl 0
  | cons c s ih =>
      have hpos : 0 < (Text.quotedChar c).length := by
        fun_cases Text.quotedChar c <;> exact Nat.zero_lt_succ _
      rw [List.flatMap_cons, List.length_append, List.length_cons]
      omega

/-- There are turns enough for a quoted text: each of its characters takes up one or more. -/
theorem text_self (s rest : List Char) :
    text (s.flatMap Text.quotedChar ++ '"' :: rest) (s.flatMap Text.quotedChar ++ '"' :: rest)
      = some (s, rest) := by
  have hlength := length_le_length_flatMap_quotedChar s
  apply text_quoted
  rw [List.length_append, List.length_cons]
  omega

/-- A quoted text is a value at any depth. -/
theorem value_quoted (depth : Nat) (s : String) (rest : List Char) :
    value depth ((Text.quoted s).toList ++ rest) = some (.text s, rest) := by
  have hscalar : scalar ((Text.quoted s).toList ++ rest) = some (.text s, rest) := by
    rw [toList_quoted, List.cons_append, List.append_assoc]
    change (text _ _).map _ = _
    rw [List.singleton_append, text_self]
    exact congrArg (fun t => some (ConfigValue.text t, rest)) String.ofList_toList
  rw [← hscalar, toList_quoted]
  cases depth <;> rfl

theorem dropBlanks_cons {c : Char} (h : isBlank c = false) (s : List Char) :
    dropBlanks (c :: s) = c :: s :=
  List.dropWhile_cons_of_neg (by simp [h])

theorem dropBlanks_quoted (s : String) (rest : List Char) :
    dropBlanks ((Text.quoted s).toList ++ rest) = (Text.quoted s).toList ++ rest := by
  rw [toList_quoted]
  exact dropBlanks_cons (by decide) _

/-- What is behind the name of a member is the rest of the object. -/
theorem members_name (depth : Nat) (turn : Char) (m : String × String) :
    members (value depth) (turn :: turns) (memberChars m ++ rest)
      = match dropBlanks rest with
        | ',' :: rest => do
          let (more, rest) ← members (value depth) turns rest
          return ((m.1, .text m.2) :: more, rest)
        | '\x7d' :: rest => some ([(m.1, .text m.2)], rest)
        | _ => none := by
  have hchars : memberChars m ++ rest = '"' :: (m.1.toList.flatMap Text.quotedChar
      ++ '"' :: ':' :: ((Text.quoted m.2).toList ++ rest)) := by
    simp [memberChars, toList_quoted m.1]
  have hcolon : dropBlanks (':' :: ((Text.quoted m.2).toList ++ rest))
      = ':' :: ((Text.quoted m.2).toList ++ rest) := dropBlanks_cons (by decide) _
  rw [hchars, members, dropBlanks_cons (by decide)]
  simp only [text_self, hcolon, dropBlanks_quoted, value_quoted, String.ofList_toList,
    Option.bind_eq_bind, Option.bind_some]
  rfl

theorem members_texts (depth : Nat) (m : String × String) (more : List (String × String))
    (h : more.length < turns.length) :
    members (value depth) turns
        ([','].intercalate ((m :: more).map memberChars) ++ '\x7d' :: rest)
      = some ((m :: more).map fun m => (m.1, .text m.2), rest) := by
  induction more generalizing m turns with
  | nil =>
      obtain ⟨turn, turns, rfl⟩ := List.exists_cons_of_length_pos h
      rw [List.map_singleton, List.intercalate_singleton, members_name,
        dropBlanks_cons (by decide)]
      rfl
  | cons next more ih =>
      obtain ⟨turn, turns, rfl⟩ := List.exists_cons_of_length_pos (Nat.zero_lt_of_lt h)
      rw [List.map_cons, List.map_cons, List.intercalate_cons_cons, List.append_assoc,
        List.append_assoc, List.singleton_append, members_name, dropBlanks_cons (by decide),
        ← List.map_cons]
      change (members (value depth) turns _).bind _ = _
      rw [ih next (Nat.lt_of_succ_lt_succ h)]
      rfl

def objectChars (fields : List (String × String)) : List Char :=
  [','].intercalate (fields.map memberChars) ++ ['\x7d']

/-- An object of texts is read back as the table of them. -/
theorem value_object (depth : Nat) {fields : List (String × String)} (hne : fields ≠ []) :
    value (depth + 1) ('\x7b' :: objectChars fields)
      = some (.table (fields.map fun m => (m.1, .text m.2)), []) := by
  obtain ⟨m, more, rfl⟩ := List.exists_cons_of_ne_nil hne
  have hturns : more.length < (objectChars (m :: more)).length := by
    rw [objectChars, List.length_append, Chars.length_intercalate, List.length_map,
      List.length_cons, List.length_singleton]
    omega
  have hmembers : members (value depth) (objectChars (m :: more)) (objectChars (m :: more))
      = some ((m :: more).map fun m => (m.1, .text m.2), []) :=
    members_texts depth m more hturns
  obtain ⟨tail, htail⟩ : ∃ tail, objectChars (m :: more) = '"' :: tail := by
    rw [objectChars, List.map_cons, memberChars, String.toList_append, String.toList_append,
      toList_quoted]
    cases more.map memberChars <;> exact ⟨_, rfl⟩
  rw [htail] at hmembers ⊢
  change (members (value depth) ('"' :: tail) ('"' :: tail)).map _ = _
  rw [hmembers]
  rfl

theorem parse?_object {document : String} {fields : List (String × String)} (hne : fields ≠ [])
    (h : document.toList = '\x7b' :: objectChars fields) :
    parse? document = some (.table (fields.map fun m => (m.1, .text m.2))) := by
  obtain ⟨depth, hdepth⟩ : ∃ depth, maxNesting = depth + 1 := ⟨_, rfl⟩
  rw [parse?, h, dropBlanks_cons (by decide), hdepth, value_object depth hne]
  rfl

/-! ### Line feeds -/

theorem newline_notMem_quotedChar (c : Char) : '\n' ∉ Text.quotedChar c := by
  have hdigit : ∀ n < 16, '\n' ≠ Text.hexDigit n := by decide
  fun_cases Text.quotedChar c with
  | case8 _ _ _ _ _ _ _ _ hcontrol =>
      have hhigh := hdigit (c.toNat / 16) (by omega)
      have hlow := hdigit (c.toNat % 16) (Nat.mod_lt _ (by decide))
      simp [hhigh, hlow]
  | case9 _ _ _ hnewline => exact fun h => hnewline (List.mem_singleton.mp h).symm
  | _ => decide

/-- No object of texts has a line feed in it. -/
theorem newline_notMem_objectChars {fields : List (String × String)} :
    '\n' ∉ objectChars fields := by
  have hquoted (s : String) : '\n' ∉ (Text.quoted s).toList := by
    simp [toList_quoted, newline_notMem_quotedChar]
  intro h
  rcases List.mem_append.mp h with h | h
  · rcases Chars.mem_intercalate h with h | ⟨piece, hpiece, h⟩
    · exact absurd h (by decide)
    · obtain ⟨m, -, rfl⟩ := List.mem_map.mp hpiece
      simp [memberChars, hquoted] at h
  · exact absurd h (by decide)

end TestSelection.Json
