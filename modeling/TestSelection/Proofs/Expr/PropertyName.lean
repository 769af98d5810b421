import TestSelection.Proofs.Expr.Names
import TestSelection.Proofs.Expr.RoundTrip

/-!
Names that are read as themselves. A text is read as the name that it spells exactly if it is a
dotted name and not too long for an expression. The lexer takes letters, digits, underscores and
points alike, and the parser refuses names in which a point has nothing behind it; cut at its points,
a dotted name consists of words, none of which is empty.
-/

namespace TestSelection

namespace Expr

variable {e : Expr} {n : String} {s : List Char}

/-! ### Dotted names -/

/-- The parser refuses a name for a piece behind a point that is empty. -/
theorem isPropertyName_iff_tail_splitAt :
    isPropertyName s = true ↔ [] ∉ (Chars.splitAt '.' s).tail := by
  fun_induction isPropertyName s with
  | case1 => simp [Chars.splitAt, Chars.splitBy]
  | case2 => simp [Chars.splitAt, Chars.splitBy]
  | case3 rest => simp [Chars.splitAt_cons_self]
  | case4 c s hend hpair ih =>
      rw [ih]
      by_cases hc : c = '.'
      · subst hc
        obtain ⟨d, rest, rfl⟩ : ∃ d rest, s = d :: rest :=
          List.exists_cons_of_ne_nil fun hnil => hend rfl hnil
        have hd : d ≠ '.' := fun hd => hpair rest rfl (hd ▸ rfl)
        obtain ⟨part, parts, -, hsplit⟩ := Chars.exists_splitAt_cons hd rest
        simp [Chars.splitAt_cons_self, hsplit]
      · obtain ⟨part, parts, hs, hsplit⟩ := Chars.exists_splitAt_cons hc s
        rw [hs, hsplit, List.tail_cons, List.tail_cons]

/-- A dotted name consists of words with points between them, and is no literal. -/
theorem dottedName_iff_pieces :
    DottedName n ↔ (∃ c ∈ n.toList.head?, Token.startsName c = true) ∧
      (∀ piece ∈ Chars.splitAt '.' n.toList,
        piece ≠ [] ∧ ∀ c ∈ piece, Chars.isWordChar c = true) ∧
      n ≠ "true" ∧ n ≠ "false" := by
  have hpoints : isPropertyName n.toList = true ↔ _ := isPropertyName_iff n.toList
  rw [isPropertyName_iff_tail_splitAt] at hpoints
  constructor
  · intro h
    obtain ⟨c, hc, hstart⟩ := h.first
    obtain ⟨rest, hn⟩ := List.head?_eq_some_iff.mp hc
    have hpoint : c ≠ '.' := by
      rintro rfl
      exact absurd hstart (by decide)
    obtain ⟨part, parts, -, hsplit⟩ := Chars.exists_splitAt_cons hpoint rest
    have htail : [] ∉ (Chars.splitAt '.' n.toList).tail := hpoints.mpr ⟨h.hend, h.hpair⟩
    refine ⟨h.first, fun piece hpiece => ⟨?_, fun d hd => ?_⟩, h.htrue, h.hfalse⟩
    · rintro rfl
      rw [hn, hsplit] at hpiece htail
      exact htail ((List.mem_cons.mp hpiece).resolve_left (by simp))
    · obtain ⟨hne, hmem⟩ := Chars.of_mem_splitBy hpiece hd
      have hgoes : Token.continuesName d = true := by
        rw [hn] at hmem
        rcases List.mem_cons.mp hmem with rfl | hmem
        · exact Token.continuesName_of_startsName hstart
        · exact h.rest d (by rw [hn]; exact hmem)
      exact (Bool.or_eq_true_iff.mp hgoes).resolve_right (by simp [hne])
  · rintro ⟨hfirst, hpieces, htrue, hfalse⟩
    obtain ⟨hend, hpair⟩ := hpoints.mp fun hmem => (hpieces [] (List.mem_of_mem_tail hmem)).1 rfl
    refine ⟨hfirst, fun c hc => ?_, hend, hpair, htrue, hfalse⟩
    rcases Chars.eq_or_exists_mem_splitAt '.' (List.mem_of_mem_tail hc) with
      rfl | ⟨piece, hpiece, hc⟩
    · decide
    · rw [Token.continuesName, (hpieces piece hpiece).2 c hc, Bool.true_or]

/-! ### Texts -/

theorem dottedName_of_contains_names (h : e.Writable) (hn : e.names.contains n = true) :
    DottedName n := by
  induction e with
  | name m => exact contains_names_name.mp hn ▸ h
  | text | number | bool => exact nomatch hn
  | not e ih | neg e ih => exact ih h hn
  | binary op l r ihl ihr =>
      rcases contains_names_binary.mp hn with hn | hn
      · exact ihl h.1 hn
      · exact ihr h.2 hn

theorem parse_of_dottedName (h : DottedName n) (hsize : n.utf8ByteSize ≤ maxExprBytes) :
    parse n = .ok (.name n) := by
  have hleaf : Leaf (.name n) (.name n) := .name h.hend h.hpair h.htrue h.hfalse
  have hlexes : Token.Lexes n.toList [.name n] := Token.lexes_spelling h.spellable
  rw [← map_token_unplaced [Token.name n]] at hlexes
  have hphrase : Phrase 0 (.level .disjunction) (unplaced [.name n]) (.name n) :=
    hleaf.phrase (by decide)
  exact parse_eq_ok_iff_spells.mpr
    ⟨hsize, unplaced [.name n], hlexes, hphrase.mono (Nat.zero_le _)⟩

theorem parse_eq_name_iff :
    parse n = .ok (.name n) ↔ n.utf8ByteSize ≤ maxExprBytes ∧ DottedName n :=
  ⟨fun h => ⟨(parse_eq_ok_iff_spells.mp h).1, writable_of_parse h⟩,
    fun ⟨hsize, hname⟩ => parse_of_dottedName hname hsize⟩

theorem checkNames_name {knows : String → Bool} :
    (name n).checkNames knows = .ok () ↔ knows n = true := by
  rw [checkNames_eq_ok]
  exact ⟨fun h => h n (contains_names_name.mpr rfl), fun h m hm => contains_names_name.mp hm ▸ h⟩

end Expr

end TestSelection
