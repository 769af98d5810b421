import TestSelection.Filter.Basic
import TestSelection.Proofs.Expr.Logic
import TestSelection.Proofs.Table

/-!
Selection by keywords. In the context of a test each of its keywords has the value `true`, and every
other name that of `null`, which has an entry of its own unless it is a keyword. So a name is true
if it is a keyword of the test, no name faults, and a formula says what it says of the set of
keywords. Each answer is for its own test. What the filter remembers grows by the tests that it
rejects and that are to be ignored.
-/

namespace TestSelection

/-! ### The context of a test -/

theorem Context.get?_foldl_set (names : List String) (value : String) (c : Context)
    (name : String) :
    (names.foldl (fun c n => c.set n value) c).get? name
      = if name ∈ names then some (.value value) else c.get? name := by
  induction names generalizing c with
  | nil => simp
  | cons head rest ih =>
      have hset : (c.set head value).get? name
          = if head = name then some (.value value) else c.get? name :=
        c.get?_put head name (.value value)
      rw [List.foldl_cons, ih, hset]
      by_cases hrest : name ∈ rest
      · simp [hrest]
      · by_cases hhead : head = name
        · simp [hhead]
        · simp [hrest, hhead, Ne.symm hhead]

theorem Context.fact_empty (name : String) : empty.fact name = .value nullText := by
  have hget : empty.get? name = if nullText = name then some (.value nullText) else none :=
    (Table.empty : Table Fact).get?_insert nullText name (.value nullText)
  rw [fact, hget]
  split <;> rfl

namespace Decision

variable (test : Description)

/-- The keywords of a test are true, and all other names have the value `null`. -/
theorem fact_keywordContext (name : String) :
    (keywordContext test).fact name
      = .value (if test.hasKeyword name then "true" else nullText) := by
  have hget : (keywordContext test).get? name
      = if name ∈ test.keywords.names then some (.value "true") else Context.empty.get? name := by
    rw [keywordContext, Context.ofPairs, List.foldl_map]
    exact Context.get?_foldl_set test.keywords.names "true" Context.empty name
  simp only [Table.mem_names_iff] at hget
  rw [Context.fact, hget, Description.hasKeyword]
  split
  · rfl
  · exact Context.fact_empty name

theorem holds_keywordContext (name : String) :
    (Expr.name name).holds (keywordContext test) = .ok (test.hasKeyword name) := by
  have heval : (Expr.name name).eval (keywordContext test)
      = .ok (.text (if test.hasKeyword name then "true" else nullText)) := by
    rw [Expr.eval, Expr.lookUp_eq, fact_keywordContext]
  rw [Expr.holds_eq_ok]
  refine ⟨_, heval, ?_⟩
  cases test.hasKeyword name <;> decide +kernel

/-- A formula says of a test what it says of the set of its keywords. -/
theorem keywords_expr (f : Formula) : keywords f.expr test = .ok (f.value test.hasKeyword) :=
  f.holds_expr (holds_keywordContext test)

end Decision

/-! ### Tests one after another -/

namespace Filter

/-- The answers of a filter to tests one after another, and the filter as they leave it. -/
def answers (exprs : ExprCache) (f : Filter) :
    List Description → List (Except FilterFault Bool) × Filter
  | [] => ([], f)
  | test :: tests =>
    let (answer, exprs, f) := f.accepts exprs test
    let (rest, f) := answers exprs f tests
    (answer :: rest, f)

section

variable (text : String) (f : Formula) (exprs : ExprCache)

/-- Whether a test is rejected although it is to be ignored. -/
def passesOver (f : Formula) (test : Description) : Bool :=
  !f.value test.hasKeyword && test.hasKeyword ignoreKeyword

/-- The tests passed over, with one more. -/
def notePassedOver (f : Formula) (ignored : NameSet) (test : Description) : NameSet :=
  if passesOver f test then ignored.add test.url else ignored

theorem accepts_keyword (ignored : NameSet) (test : Description) :
    (keyword text f.expr ignored).accepts exprs test
      = (.ok (f.value test.hasKeyword), exprs,
        keyword text f.expr (notePassedOver f ignored test)) := by
  rw [accepts, Decision.keywords_expr]
  rfl

theorem answers_keyword (ignored : NameSet) (tests : List Description) :
    (keyword text f.expr ignored).answers exprs tests
      = (tests.map fun test => .ok (f.value test.hasKeyword),
        keyword text f.expr (tests.foldl (notePassedOver f) ignored)) := by
  induction tests generalizing ignored with
  | nil => rfl
  | cons test rest ih =>
      rw [answers, accepts_keyword]
      simp only [ih, List.map_cons, List.foldl_cons]

variable {f}

theorem contains_notePassedOver {ignored : NameSet} {test : Description} {url : String} :
    (notePassedOver f ignored test).contains url = true ↔
      ignored.contains url = true ∨ passesOver f test = true ∧ test.url = url := by
  rw [notePassedOver]
  split
  · rename_i hpasses
    rw [NameSet.contains_add, Bool.or_eq_true, beq_iff_eq, or_comm, and_iff_right hpasses]
  · rename_i hpasses
    exact ⟨Or.inl, fun h => h.resolve_right fun hnew => hpasses hnew.1⟩

theorem contains_foldl_notePassedOver {ignored : NameSet} {tests : List Description}
    {url : String} :
    (tests.foldl (notePassedOver f) ignored).contains url = true ↔
      ignored.contains url = true ∨ ∃ test ∈ tests, passesOver f test = true ∧ test.url = url := by
  induction tests generalizing ignored with
  | nil => simp
  | cons test rest ih =>
      rw [List.foldl_cons, ih, contains_notePassedOver, List.exists_mem_cons_iff, or_assoc]

end

/-- A filter for a formula never faults, accepts the tests of whose keywords the formula is true,
and remembers of the others those that are to be ignored, whatever tests it is given. -/
theorem answers_ofKeywords {text : String} {f : Formula} (h : Expr.parse text = .ok f.expr)
    (exprs : ExprCache) (tests : List Description) :
    ∃ filter ignored, ofKeywords text = .ok filter ∧
      filter.answers exprs tests
        = (tests.map fun test => .ok (f.value test.hasKeyword), keyword text f.expr ignored) ∧
      ∀ url, ignored.contains url = true ↔
        ∃ test ∈ tests, f.value test.hasKeyword = false ∧
          test.hasKeyword ignoreKeyword = true ∧ test.url = url := by
  refine ⟨keyword text f.expr Table.empty, tests.foldl (notePassedOver f) Table.empty, ?_,
    answers_keyword text f exprs Table.empty tests, fun url => ?_⟩
  · rw [ofKeywords, h]
  · rw [contains_foldl_notePassedOver]
    simp [passesOver, Table.contains, and_assoc]

/-- Of four tests the third is to be ignored, and the fourth is accepted for a keyword `null`. -/
theorem answers_ofKeywords_null :
    let text := "!manual & !ignore | null"
    let f : Formula := .or (.and (.not (.name "manual")) (.not (.name "ignore"))) (.name "null")
    let test (name : String) (keywords : List String) : Description :=
      { Description.new ⟨name⟩ name 1 none with keywords := NameSet.ofNames keywords }
    let tests := [test "Plain.java" ["othervm"], test "Manual.java" ["manual"],
      test "Ignored.java" ["ignore", "manual"], test "Null.java" ["ignore", "null"]]
    Expr.parse text = .ok f.expr ∧ ∃ filter ignored, ofKeywords text = .ok filter ∧
      filter.answers ExprCache.empty tests
        = ([.ok true, .ok false, .ok false, .ok true], keyword text f.expr ignored) ∧
      ∀ url, ignored.contains url = true ↔ url = "Ignored.java" := by
  intro text f test tests
  have hparse : Expr.parse text = .ok f.expr := by decide +kernel
  have hvalues : (tests.map fun test => (.ok (f.value test.hasKeyword) : Except FilterFault Bool))
      = [.ok true, .ok false, .ok false, .ok true] := by
    decide +kernel
  have hpassed : (tests.filter (passesOver f)).map Description.url = ["Ignored.java"] := by
    decide +kernel
  obtain ⟨filter, ignored, hfilter, hanswers, hignored⟩ :=
    answers_ofKeywords hparse ExprCache.empty tests
  rw [hvalues] at hanswers
  refine ⟨hparse, filter, ignored, hfilter, hanswers, fun url => ?_⟩
  rw [hignored, ← List.mem_singleton, ← hpassed]
  simp [passesOver, and_assoc]

end Filter

end TestSelection
