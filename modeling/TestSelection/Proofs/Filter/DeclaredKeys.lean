import TestSelection.Proofs.Expr.PropertyName
import TestSelection.Proofs.Filter.Keywords
import TestSelection.Proofs.Letters
import TestSelection.Proofs.Suite.Validity

/-!
Filters for the keys that a configuration declares. A declared key is a word, and the text of a
filter is an expression; a word is read as the name that it spells unless it starts with a digit or
is the literal of a truth value. Where it is, the filter asks whether a test carries the key. Where
it is not, the expression does not mention the key, if there is one at all, and so gives a test that
carries the key and one that does not the same answer.
-/

namespace TestSelection

/-! ### Words -/

/-- Whether a text consists of ASCII letters, digits and underscores, one or more. -/
def IsKeyword (key : String) : Prop :=
  key.toList ≠ [] ∧ ∀ c ∈ key.toList, Chars.isWordChar c = true

/-- The usual form of a key is a word. -/
theorem isKeyword_normalizeKey {key : String} (h : isKey key = true) :
    IsKeyword (SuiteConfig.normalizeKey key) := by
  obtain ⟨hempty, hall⟩ := Bool.and_eq_true_iff.mp h
  have hne : key.toList ≠ [] := by simpa using hempty
  have hchar : ∀ c ∈ key.toList, Chars.isWordChar c = true ∨ c = '-' := fun c hc => by
    simpa using List.all_eq_true.mp hall c hc
  have hblank : ∀ c ∈ key.toList, Chars.isBlank c = false := fun c hc => by
    rcases hchar c hc with hword | rfl
    · exact Chars.isBlank_of_isWordChar hword
    · decide
  have htrim : Chars.trim key.toList = key.toList :=
    Chars.trim_of_ends (fun c hc => hblank c (List.mem_of_mem_head? hc))
      fun c hc => hblank c (List.mem_of_mem_getLast? hc)
  rw [IsKeyword, SuiteConfig.normalizeKey, Text.swap, Text.trim, htrim, String.ofList_toList,
    String.toList_ofList]
  refine ⟨by simpa using hne, fun c hc => ?_⟩
  obtain ⟨d, hd, rfl⟩ := List.mem_map.mp hc
  rcases hchar d hd with hword | rfl
  · split
    · decide
    · exact hword
  · decide

/-- The keys that a valid configuration declares are words. -/
theorem SuiteConfig.isKeyword_of_check {c : SuiteConfig} {keys : NameSet} {key : String}
    (h : c.check = .ok ()) (hkeys : c.validKeys = some keys) (hkey : keys.contains key = true) :
    IsKeyword key := by
  obtain ⟨hsuite, -⟩ := check_bind_eq_ok.mp h
  obtain ⟨declared, hdeclared, rfl⟩ := Option.map_eq_some_iff.mp hkeys
  obtain ⟨k, hk, rfl⟩ := List.mem_map.mp (NameSet.contains_ofNames.mp hkey)
  have hcheck : checkKeys "keys" declared = .ok () := (checkSuite_eq_ok.mp hsuite).1 _ hdeclared
  exact isKeyword_normalizeKey (checkEach_eq_ok.mp hcheck k hk)

/-- A word is a name unless it starts with a digit or is a literal. -/
theorem IsKeyword.dottedName_iff {key : String} (h : IsKeyword key) :
    Expr.DottedName key ↔ (∀ c ∈ key.toList.head?, c.isDigit = false) ∧
      key ≠ "true" ∧ key ≠ "false" := by
  obtain ⟨hne, hword⟩ := h
  constructor
  · intro hname
    obtain ⟨c, hc, hstart⟩ := hname.first
    refine ⟨fun d hd => ?_, hname.htrue, hname.hfalse⟩
    obtain rfl := Option.some.inj (hc.symm.trans hd)
    exact Token.isDigit_of_startsName hstart
  · rintro ⟨hdigit, htrue, hfalse⟩
    have hpoint : '.' ∉ key.toList := fun hmem => absurd (hword '.' hmem) (by decide)
    obtain ⟨c, rest, hkey⟩ := List.exists_cons_of_ne_nil hne
    have hc : c ∈ key.toList.head? := by rw [hkey]; rfl
    refine ⟨⟨c, hc, ?_⟩, fun d hd => ?_, fun hend => hpoint (hend.subset List.mem_cons_self),
      fun hpair => hpoint (hpair.subset List.mem_cons_self), htrue, hfalse⟩
    · rcases Chars.isWordChar_iff.mp (hword c (List.mem_of_mem_head? hc)) with h | h | rfl
      · rw [Token.startsName, h, Bool.true_or]
      · exact absurd h (by simp [hdigit c hc])
      · decide
    · rw [Token.continuesName, hword d (List.mem_of_mem_tail hd), Bool.true_or]

/-! ### Filters -/

namespace Filter

/-- The filter accepts, of any tests one after another, exactly those that carry the key. -/
def Selects (f : Filter) (key : String) : Prop :=
  ∀ exprs tests, (f.answers exprs tests).1 = tests.map fun test => .ok (test.hasKeyword key)

variable {text key : String} {e : Expr} {ignored : NameSet}

theorem selects_name (text key : String) (ignored : NameSet) :
    (keyword text (.name key) ignored).Selects key := by
  intro exprs tests
  have hanswers := answers_keyword text (.name key) exprs ignored tests
  exact congrArg Prod.fst hanswers

/-- What a filter that selects a key answers to one test. -/
theorem Selects.keywords (h : (keyword text e ignored).Selects key) (test : Description) :
    Decision.keywords e test = .ok (test.hasKeyword key) := by
  have hanswer := h ExprCache.empty [test]
  simp only [answers, accepts] at hanswer
  split at hanswer <;> simp_all

/-- Two tests that differ in no name of an expression are given the same answer. -/
theorem keywords_congr {test test' : Description}
    (h : ∀ n, e.names.contains n = true → test.hasKeyword n = test'.hasKeyword n) :
    Decision.keywords e test = Decision.keywords e test' := by
  have heval : e.eval (Decision.keywordContext test) = e.eval (Decision.keywordContext test') := by
    refine Expr.eval_eq_of_asked fun n hn => ?_
    rw [Expr.lookUp_eq, Expr.lookUp_eq, Decision.fact_keywordContext,
      Decision.fact_keywordContext, h n (Expr.contains_names_of_mem_asked hn)]
  rw [Decision.keywords, Decision.keywords, Expr.holds, Expr.holds, heval]

/-- A test that carries only the key and a test that carries none are told apart by the key
alone. -/
theorem Selects.contains_names (h : (keyword text e ignored).Selects key) :
    e.names.contains key = true := by
  by_contra hnot
  let bare := Description.new ⟨"A.java"⟩ "A.java" 1 none
  let tagged := { bare with keywords := NameSet.ofNames [key] }
  have hsame : Decision.keywords e bare = Decision.keywords e tagged := by
    refine keywords_congr fun n hn => ?_
    have hother : tagged.hasKeyword n = false := by
      rw [← Bool.not_eq_true, Description.hasKeyword, NameSet.contains_ofNames,
        List.mem_singleton]
      rintro rfl
      exact hnot hn
    rw [hother]
    rfl
  have hbare : bare.hasKeyword key = false := rfl
  have htagged : tagged.hasKeyword key = true := NameSet.contains_ofNames.mpr List.mem_cons_self
  rw [h.keywords, h.keywords, hbare, htagged] at hsame
  exact absurd (Except.ok.inj hsame) Bool.false_ne_true

end Filter

/-- A key that a valid configuration declares can be selected by its own name exactly if the name is
short enough for an expression, starts with no digit and is not the literal of a truth value. -/
theorem SuiteConfig.exists_selects_validKey_iff {c : SuiteConfig} {keys : NameSet} {key : String}
    (h : c.check = .ok ()) (hkeys : c.validKeys = some keys) (hkey : keys.contains key = true) :
    (∃ f, Filter.ofKeywords key = .ok f ∧ f.Selects key) ↔
      key.utf8ByteSize ≤ 65536 ∧ (∀ c ∈ key.toList.head?, c.isDigit = false) ∧
        key ≠ "true" ∧ key ≠ "false" := by
  rw [← (isKeyword_of_check h hkeys hkey).dottedName_iff]
  constructor
  · rintro ⟨f, hf, hselects⟩
    rw [Filter.ofKeywords] at hf
    split at hf
    · rename_i e hparse
      obtain rfl := Except.ok.inj hf
      exact ⟨(Expr.parse_eq_ok_iff_spells.mp hparse).1,
        Expr.dottedName_of_contains_names (Expr.writable_of_parse hparse) hselects.contains_names⟩
    · cases hf
  · rintro ⟨hsize, hname⟩
    refine ⟨_, ?_, Filter.selects_name key key Table.empty⟩
    rw [Filter.ofKeywords, Expr.parse_of_dottedName hname hsize]

/-- A key that is declared with a hyphen is selected by its usual form. -/
theorem SuiteConfig.exists_selects_validKey_hyphen :
    let c : SuiteConfig := { default with keys := some ["headful", "cte-test"] }
    let keys := NameSet.ofNames ["headful", "cte_test"]
    c.check = .ok () ∧ c.validKeys = some keys ∧ keys.contains "cte_test" = true ∧
      ∃ f, Filter.ofKeywords "cte_test" = .ok f ∧ f.Selects "cte_test" := by
  intro c keys
  have hcheck : c.check = .ok () := by decide +kernel
  have hkeys : c.validKeys = some keys := by decide +kernel
  have hkey : keys.contains "cte_test" = true := by decide +kernel
  have hfirst : ∀ c ∈ "cte_test".toList.head?, c.isDigit = false := by
    rintro _ ⟨⟩
    rfl
  exact ⟨hcheck, hkeys, hkey, (exists_selects_validKey_iff hcheck hkeys hkey).mpr
    ⟨by decide, hfirst, by decide, by decide⟩⟩

/-- Neither can a declared key that starts with a digit be asked for, nor is a test that carries the
key `false` found by it. -/
theorem SuiteConfig.not_selects_digitKey :
    let c : SuiteConfig := { default with keys := some ["64bit", "false"] }
    let keys := NameSet.ofNames ["64bit", "false"]
    let test := { Description.new ⟨"A.java"⟩ "A.java" 1 none with keywords := keys }
    c.check = .ok () ∧ c.validKeys = some keys ∧ keys.contains "64bit" = true ∧
      keys.contains "false" = true ∧
      Filter.ofKeywords "64bit" = .error (.badKeywords (.invalidNumber "64bit" 0)) ∧
      ∃ f, Filter.ofKeywords "false" = .ok f ∧ test.hasKeyword "false" = true ∧
        (f.accepts ExprCache.empty test).1 = .ok false := by
  intro c keys test
  have hdigit : Expr.parse "64bit" = .error (.invalidNumber "64bit" 0) := by decide +kernel
  have hliteral : Expr.parse "false" = .ok (.bool false) := by decide +kernel
  have hanswer : ((Filter.keyword "false" (.bool false) Table.empty).accepts
      ExprCache.empty test).1 = .ok false := by decide +kernel
  refine ⟨by decide +kernel, by decide +kernel, by decide +kernel, by decide +kernel, ?_,
    _, ?_, by decide +kernel, hanswer⟩
  · rw [Filter.ofKeywords, hdigit]
  · rw [Filter.ofKeywords, hliteral]

end TestSelection
