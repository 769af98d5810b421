import TestSelection.Proofs.Expr.Names
import TestSelection.Proofs.Tag.Conjunction
import TestSelection.Proofs.Tag.Step

/-!
The requirement of a test. A declaration adds the text of a tag only after it has been read and its
names are known, so each of its requirements is in order. The text that all of them are joined to
has no other names. But it is longer than the texts and nests one deeper, and nobody has looked at
it: it is in order only if it stays within the limits on both.
-/

namespace TestSelection

namespace Expr

theorem checkNames_and {knows : String → Bool} {l r : Expr} :
    (binary .and l r).checkNames knows = .ok () ↔
      l.checkNames knows = .ok () ∧ r.checkNames knows = .ok () := by
  simp only [checkNames_eq_ok, contains_names_binary, or_imp, forall_and]

/-- A conjunction has the names of its parts. -/
theorem checkNames_conjunction {knows : String → Bool} {first : Expr} {rest : List Expr} :
    (conjunction first rest).checkNames knows = .ok () ↔
      first.checkNames knows = .ok () ∧ ∀ e ∈ rest, e.checkNames knows = .ok () := by
  induction rest generalizing first with
  | nil => simp [conjunction]
  | cons e rest ih =>
      rw [List.forall_mem_cons, ← and_assoc, ← checkNames_and]
      exact ih

end Expr

namespace Declaration

open TestSelection.Expr

variable {rules : TagRules} {d : Declaration}

/-! ### Adding requirements -/

/-- All requirements are in order. -/
def Checked (rules : TagRules) (d : Declaration) : Prop :=
  ∀ r ∈ d.requires, checkRequires rules.knownNames r = .ok ()

theorem Checked.apply (h : d.Checked rules) (e : TagEntry) :
    (Declaration.apply rules d e).Checked rules := by
  intro r hr
  simp only [apply_eq, newRequires] at hr
  split at hr
  · rcases List.mem_append.mp hr with hr | hr
    · exact h r hr
    · split at hr
      · rename_i hcheck
        obtain rfl := List.mem_singleton.mp hr
        exact hcheck
      · exact absurd hr List.not_mem_nil
  · exact h r hr

theorem checked_ofEntries (rules : TagRules) (entries : List TagEntry) :
    (ofEntries rules entries).Checked rules :=
  List.foldlRecOn entries _ (fun _ hr => nomatch hr) fun _ hd e _ => hd.apply e

theorem requires_describe (d : Declaration) (file : Path) (relativePath : String) (line : Nat)
    (id : Option String) (dir : DirectoryProperties) :
    (d.describe file relativePath line id dir).requires = conjoin d.requires := by
  rw [describe]
  dsimp only
  split
  · rfl
  · split <;> rfl

/-! ### The joined text -/

theorem checkRequires_eq_ok {knownNames : KnownNames} {text : String} :
    checkRequires knownNames text = .ok () ↔
      ∃ e, Expr.parse text = .ok e ∧ e.checkNames knownNames.knows = .ok () :=
  bind_eq_ok

/-- A text that spells an expression with known names is in order if it is within the limits. -/
theorem checkRequires_of_spells {knownNames : KnownNames} {deeper : Nat} {text : String} {e : Expr}
    (h : Spells deeper text e) (hnames : e.checkNames knownNames.knows = .ok ()) :
    checkRequires knownNames text = .ok () ↔
      text.utf8ByteSize ≤ maxExprBytes ∧ Spells maxExprNesting text e := by
  rw [checkRequires_eq_ok, ← parse_eq_ok_iff_spells]
  constructor
  · rintro ⟨e', hparse, -⟩
    obtain rfl := (parse_eq_ok_iff_spells.mp hparse).2.unique h
    exact hparse
  · exact fun hparse => ⟨e, hparse, hnames⟩

/-- What a text spells within a bound it spells within any other bound that it stays within. -/
theorem forall_spells_of_exists {depth deeper : Nat} {texts : List String} {es : List Expr}
    (h : List.Forall₂ (Spells deeper) texts es) (hdepth : ∀ r ∈ texts, ∃ e, Spells depth r e) :
    List.Forall₂ (Spells depth) texts es := by
  refine ((List.forall₂_and_left _ _).mpr ⟨hdepth, h⟩).imp fun r e hr => ?_
  obtain ⟨⟨e', hspells⟩, hdeeper⟩ := hr
  exact hspells.unique hdeeper ▸ hspells

/-- Requirements that are in order are joined to one that is in order exactly if it is short enough
and either nothing is joined or each of them leaves room for its parentheses. -/
theorem checkRequires_conjoin {knownNames : KnownNames} {texts : List String} {text : String}
    (h : ∀ r ∈ texts, checkRequires knownNames r = .ok ()) (htext : conjoin texts = some text) :
    checkRequires knownNames text = .ok () ↔ text.utf8ByteSize ≤ 65536 ∧
      (texts.length = 1 ∨ ∀ r ∈ texts, ∃ e, Spells 31 r e) := by
  match texts with
  | [] => exact nomatch htext
  | [single] =>
      obtain rfl := Option.some.inj htext
      have hsingle := h single List.mem_cons_self
      obtain ⟨e, hparse, -⟩ := checkRequires_eq_ok.mp hsingle
      exact ⟨fun _ => ⟨(parse_eq_ok_iff_spells.mp hparse).1, Or.inl rfl⟩, fun _ => hsingle⟩
  | first :: second :: rest =>
      obtain ⟨es, hes⟩ := forall_exists_iff_forall₂.mp fun r hr => checkRequires_eq_ok.mp (h r hr)
      have hspells := hes.imp fun _ _ hr => (parse_eq_ok_iff_spells.mp hr.1).2
      have hnames : ∀ e ∈ es, e.checkNames knownNames.knows = .ok () := by
        intro e he
        obtain ⟨_, -, hchecked⟩ := forall_exists_iff_forall₂.mpr ⟨_, hes.flip⟩ e he
        exact hchecked
      cases hspells with
      | @cons _ e _ es hfirst hrest =>
      obtain ⟨joined, hjoined, hiff⟩ := spells_conjoin_iff hfirst hrest
      obtain rfl := Option.some.inj (htext.symm.trans hjoined)
      have hall := checkRequires_of_spells ((hiff maxExprNesting).mpr ⟨hfirst, hrest⟩)
        (checkNames_conjunction.mpr (List.forall_mem_cons.mp hnames))
      have hroom : Spells maxExprNesting text (conjunction e es) ↔ _ := hiff 31
      have hlength : (first :: second :: rest).length ≠ 1 := by simp
      rw [hall, hroom, or_iff_right hlength]
      refine and_congr_right fun _ => ⟨fun ⟨hone, hothers⟩ => ?_, fun hroom => ?_⟩
      · exact forall_exists_iff_forall₂.mpr ⟨e :: es, .cons hone hothers⟩
      · exact List.forall₂_cons.mp (forall_spells_of_exists (.cons hfirst hrest) hroom)

/-- The requirement of a test parses and refers to known names only, exactly if its text is short
enough, and if it has been joined from several, each of these nests at most one less deep than a
text may. -/
theorem requirement_in_order_iff (rules : TagRules) (comment : String) (file : Path)
    (relativePath : String) (line : Nat) (id : Option String) (dir : DirectoryProperties)
    {text : String} :
    let d := ofEntries rules (TagEntry.ofComment comment)
    (d.describe file relativePath line id dir).requires = some text →
      ((∃ e, Expr.parse text = .ok e ∧ e.checkNames rules.knownNames.knows = .ok ()) ↔
        text.utf8ByteSize ≤ 65536 ∧
          (d.requires.length = 1 ∨ ∀ r ∈ d.requires, ∃ e, Spells 31 r e)) := by
  intro d htext
  rw [requires_describe] at htext
  exact checkRequires_eq_ok.symm.trans (checkRequires_conjoin (checked_ofEntries rules _) htext)

/-- Two requirements that leave room for their parentheses. -/
theorem requirement_in_order_two :
    let dir : DirectoryProperties := ⟨"", [], false, none, none, none⟩
    let d := ofEntries .default
      (TagEntry.ofComment "@test\n@requires os.family == null\n@requires vm.gc | true")
    let text := "(os.family == null) & (vm.gc | true)"
    (d.describe ⟨"a.java"⟩ "a.java" 1 none dir).requires = some text ∧
      (∃ e, Expr.parse text = .ok e ∧ e.checkNames KnownNames.builtin.knows = .ok ()) ∧
      ∀ r ∈ d.requires, ∃ e, Spells 31 r e := by
  intro dir d text
  have htext : (d.describe ⟨"a.java"⟩ "a.java" 1 none dir).requires = some text := by
    decide +kernel
  have hcheck : checkRequires KnownNames.builtin text = .ok () := by decide +kernel
  have hparse := checkRequires_eq_ok.mp hcheck
  obtain ⟨-, hone | hall⟩ := (requirement_in_order_iff .default _ _ _ _ _ _ htext).mp hparse
  · exact absurd hone (by decide +kernel)
  · exact ⟨htext, hparse, hall⟩

/-- A requirement that nests as deep as a text may is in order, but not together with another one.
The declaration of the test has no error. -/
theorem requirement_too_deep :
    let dir : DirectoryProperties := ⟨"", [], false, none, none, none⟩
    let deep := "((((((((((((((((((((((((((((((((false))))))))))))))))))))))))))))))))"
    let d := ofEntries .default
      (TagEntry.ofComment ("@test\n@requires " ++ deep ++ "\n@requires true"))
    let test := d.describe ⟨"a.java"⟩ "a.java" 1 none dir
    test.error = none ∧ d.requires = [deep, "true"] ∧
      Expr.parse deep = .ok (.bool false) ∧ Expr.parse "true" = .ok (.bool true) ∧
      test.requires = some ("(" ++ deep ++ ") & (true)") ∧
      Expr.parse ("(" ++ deep ++ ") & (true)") = .error (.tooDeep 32) := by
  decide +kernel

end Declaration

end TestSelection
