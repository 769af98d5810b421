import TestSelection.Proofs.Context.VmOption
import TestSelection.Proofs.Expr.Evaluation
import TestSelection.Proofs.Suite.PropertyName

/-!
References to what is known of a target. Its system properties may have any names. All other entries
of its context stand under the names that are known everywhere, or, for the flags among its options,
under a name of their family. Each of these is a dotted name, so an expression that consists of it
alone is read as that name, may be used in every suite, and says whether the entry is true.
-/

namespace TestSelection

/-- What an expression comes to that refers to a fact: a text is true unless, blanks around it apart,
it is empty or one of the words `false` and `null`. -/
def Fact.outcome (name : String) : Fact → Except Fault Bool
  | .value text => .ok (decide (Text.trim text ∉ ["", "false", "null"]))
  | .unknown reason => .error (.undetermined name reason)

theorem Expr.holds_name {c : Context} {name : String} {fact : Fact}
    (h : c.get? name = some fact) : (Expr.name name).holds c = fact.outcome name := by
  have htruth (text : String) :
      (Value.text text).truth = decide (Text.trim text ∉ ["", "false", "null"]) := by
    simp only [Value.truth, nullText, List.mem_cons, List.not_mem_nil, or_false, Bool.decide_or,
      decide_not, beq_eq_decide, Bool.or_assoc]
  cases fact with
  | value text => rw [holds, eval, lookUp, h, Fact.outcome, ← htruth]; rfl
  | unknown reason => rw [holds, eval, lookUp, h]; rfl

/-! ### Flags -/

namespace VmOption

variable {option name value flag : String}

/-- The name of a flag is the third piece of the name that a context has for it. -/
theorem dottedName_flagFact (h : isFlagName flag = true) : Expr.DottedName (flagFact flag) := by
  have hword := isWordChar_of_isFlagName h
  have hname : (flagFact flag).toList
      = ['.'].intercalate [['v', 'm'], ['o', 'p', 't'], flag.toList] := by
    simp [flagFact, String.toList_append, List.intercalate_cons_cons]
  have hpoint : '.' ∉ flag.toList := fun hmem => absurd (hword '.' hmem) (by decide)
  have hpieces : Chars.splitAt '.' (flagFact flag).toList
      = [['v', 'm'], ['o', 'p', 't'], flag.toList] := by
    rw [hname]
    refine Chars.splitAt_intercalate (List.cons_ne_nil _ _) ?_
    simp [hpoint]
  have hliteral (literal : String) (hv : 'v' ∉ literal.toList) : flagFact flag ≠ literal := by
    rintro rfl
    exact hv (by rw [hname]; exact List.mem_cons_self)
  rw [Expr.dottedName_iff_pieces, hpieces]
  refine ⟨⟨'v', by rw [hname]; rfl, by decide⟩, ?_, hliteral _ (by decide), hliteral _ (by decide)⟩
  have hvm : Chars.isWordChar 'v' = true ∧ Chars.isWordChar 'm' = true := by decide
  have hopt : Chars.isWordChar 'o' = true ∧ Chars.isWordChar 'p' = true ∧
      Chars.isWordChar 't' = true := by decide
  simp only [List.forall_mem_cons, List.not_mem_nil, false_implies, implies_true, and_true]
  exact ⟨⟨List.cons_ne_nil _ _, hvm⟩, ⟨List.cons_ne_nil _ _, hopt⟩,
    toList_ne_nil_of_isFlagName h, hword⟩

theorem knows_flagFact (h : isFlagName flag = true) :
    KnownNames.builtin.knows (flagFact flag) = true := by
  have hbehind : Text.after? KnownNames.optionFamily (flagFact flag) = some flag :=
    Text.after?_eq_some_iff.mpr rfl
  have hfamily : KnownNames.inFamily KnownNames.optionFamily (flagFact flag) = true := by
    rw [KnownNames.inFamily, hbehind]
    exact (Bool.and_eq_true_iff.mp h).1
  rw [KnownNames.knows, Bool.or_eq_true]
  exact Or.inr (List.any_eq_true.mpr ⟨_, List.mem_singleton_self _, hfamily⟩)

end VmOption

/-! ### The names of a context -/

namespace ContextBuilder

variable {b : ContextBuilder} {name : String} {fact : Fact}

/-- What is set for a target has a name that is known everywhere, if it is none of its properties. -/
theorem mem_builtinNames_of_mem_settings (h : (name, fact) ∈ b.settings)
    (hproperty : b.properties.get? name = none) : name ∈ KnownNames.builtinNames := by
  have hentries : (name, fact) ∉ b.properties.entries := fun hmem =>
    absurd (Table.mem_entries_iff.mp hmem) (by simp [hproperty])
  have hversion (version : String) :
      ∀ setting ∈ versionFacts version, setting.1 ∈ KnownNames.builtinNames := by
    simp [versionFacts, KnownNames.builtinNames]
  have hos (os : OsFacts) : ∀ setting ∈ osFacts os, setting.1 ∈ KnownNames.builtinNames := by
    simp [osFacts, KnownNames.builtinNames]
  simp only [settings, List.mem_append, List.mem_singleton, List.mem_flatMap] at h
  obtain (((h | h) | ⟨version, -, h⟩) | ⟨os, -, h⟩) | h := h
  · rw [(Prod.mk.inj h).1]
    decide
  · exact absurd h hentries
  · exact hversion version _ h
  · exact hos os _ h
  · rw [(Prod.mk.inj h).1]
    decide

/-- An entry of a target that is none of its properties is known everywhere by its name, or is that
of a flag. -/
theorem name_of_get?_build (h : b.build.get? name = some fact)
    (hproperty : b.properties.get? name = none) :
    name ∈ KnownNames.builtinNames ∨
      ∃ flag, VmOption.isFlagName flag = true ∧ name = VmOption.flagFact flag := by
  rw [get?_build, Option.or_eq_some_iff, Option.map_eq_some_iff] at h
  rcases h with hset | ⟨-, value, hgiven, -⟩
  · have hmem := List.mem_reverse.mp (Table.mem_of_find? hset)
    exact Or.inl (mem_builtinNames_of_mem_settings hmem hproperty)
  · obtain ⟨option, -, hfact⟩ := List.mem_filterMap.mp (Table.mem_of_find? hgiven)
    cases VmOption.fact?_eq_some_iff.mp hfact with
    | collector | compMode => exact Or.inl (by decide)
    | assigned hflag | enabled hflag _ | disabled hflag => exact Or.inr ⟨_, hflag, rfl⟩

theorem dottedName_builtinNames : ∀ n ∈ KnownNames.builtinNames, Expr.DottedName n := by
  have hnames : ∀ n ∈ KnownNames.builtinNames,
      isPropertyName n = true ∧ n ≠ "true" ∧ n ≠ "false" := by decide +kernel
  intro n hn
  obtain ⟨hname, htrue, hfalse⟩ := hnames n hn
  exact (isPropertyName_iff_dottedName htrue hfalse).mp hname

theorem knows_builtinNames : ∀ n ∈ KnownNames.builtinNames, KnownNames.builtin.knows n = true := by
  decide +kernel

/-- Each entry of a target that is none of its properties can be referred to by its name in every
suite, and the expression that does so says what the entry says. -/
theorem refers_entry (h : b.build.get? name = some fact)
    (hproperty : b.properties.get? name = none) (hsize : name.utf8ByteSize ≤ 65536) :
    Expr.parse name = .ok (.name name) ∧
      (Expr.name name).checkNames KnownNames.builtin.knows = .ok () ∧
      (Expr.name name).holds b.build = fact.outcome name := by
  rw [Expr.checkNames_name]
  have hname : Expr.DottedName name ∧ KnownNames.builtin.knows name = true := by
    rcases name_of_get?_build h hproperty with hbuiltin | ⟨flag, hflag, rfl⟩
    · exact ⟨dottedName_builtinNames name hbuiltin, knows_builtinNames name hbuiltin⟩
    · exact ⟨VmOption.dottedName_flagFact hflag, VmOption.knows_flagFact hflag⟩
  exact ⟨Expr.parse_of_dottedName hname.1 hsize, hname.2, Expr.holds_name h⟩

/-- A flag that is a number, and a release that could not be told. -/
theorem refers_entry_flag :
    let b : ContextBuilder := { empty with
      version := some "internal", vmOptions := ["-XX:8080= false ", "-XX:+UseZGC"] }
    b.build.get? "vm.opt.8080" = some (.value " false ") ∧
      Expr.parse "vm.opt.8080" = .ok (.name "vm.opt.8080") ∧
      (Expr.name "vm.opt.8080").checkNames KnownNames.builtin.knows = .ok () ∧
      (Expr.name "vm.opt.8080").holds b.build = .ok false ∧
      (Expr.name "jdk.version.major").holds b.build
        = .error (.undetermined "jdk.version.major"
          "cannot determine major version from internal") := by
  intro b
  have hflag : b.build.get? "vm.opt.8080" = some (.value " false ") := by decide +kernel
  have hmajor : b.build.get? "jdk.version.major"
      = some (.unknown "cannot determine major version from internal") := by
    decide +kernel
  obtain ⟨hparse, hknown, hholds⟩ := refers_entry hflag rfl (by decide)
  obtain ⟨-, -, hfault⟩ := refers_entry hmajor rfl (by decide)
  exact ⟨hflag, hparse, hknown, hholds.trans (by decide +kernel), hfault⟩

end ContextBuilder

end TestSelection
