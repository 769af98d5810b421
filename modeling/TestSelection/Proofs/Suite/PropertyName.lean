import TestSelection.Proofs.Expr.PropertyName
import TestSelection.Proofs.Suite.Validity

/-!
The properties that a suite declares. A configuration cuts such a name at its points and looks at the
pieces; an expression takes a run of letters, digits, underscores and points and refuses some points.
Both come to the dotted names, but for the literals of the truth values, which a configuration does
not know. So a property that may be declared can be referred to, and whatever may not be declared
could not be referred to in any case.
-/

namespace TestSelection

/-! ### Two readings of a name -/

section

variable {n : String}

theorem isWord_iff {s : List Char} :
    isWord s = true ↔ s ≠ [] ∧ ∀ c ∈ s, Chars.isWordChar c = true := by
  simp [isWord]

theorem isPropertyName_eq (n : String) :
    isPropertyName n
      = (n.toList.head?.any Token.startsName && (Chars.splitAt '.' n.toList).all isWord) := by
  rw [isPropertyName]
  cases n.toList <;> rfl

theorem isPropertyName_iff_dottedName (htrue : n ≠ "true") (hfalse : n ≠ "false") :
    isPropertyName n = true ↔ Expr.DottedName n := by
  rw [isPropertyName_eq, Bool.and_eq_true, Option.any_eq_true, List.all_eq_true,
    Expr.dottedName_iff_pieces]
  simp only [isWord_iff, htrue, hfalse, ne_eq, not_false_iff, and_true]
  rfl

theorem isPropertyName_iff_parse (hsize : n.utf8ByteSize ≤ maxExprBytes) (htrue : n ≠ "true")
    (hfalse : n ≠ "false") : isPropertyName n = true ↔ Expr.parse n = .ok (.name n) := by
  rw [isPropertyName_iff_dottedName htrue hfalse, Expr.parse_eq_name_iff, and_iff_right hsize]

end

/-! ### Known names -/

theorem KnownNames.names_foldl_insert (names : List String) (k : KnownNames) :
    (names.foldl insert k).names = names.foldl NameSet.add k.names := by
  induction names generalizing k with
  | nil => rfl
  | cons n names ih => exact ih (k.insert n)

theorem KnownNames.knows_withNames {names : List String} {n : String} (h : n ∈ names) :
    (withNames names).knows n = true := by
  have hcontains : (withNames names).names.contains n = true := by
    rw [withNames, names_foldl_insert]
    exact (NameSet.contains_foldl_add names _ n).mpr (Or.inl h)
  rw [knows, hcontains, Bool.true_or]

/-! ### Checks -/

/-- The first item that is wrong is the problem. -/
theorem checkAll_eq_error {α : Type} {check : Nat → α → Except ConfigProblem Unit}
    {before after : List α} {item : α} {problem : ConfigProblem}
    (hbefore : checkAll before check = .ok ()) (h : check before.length item = .error problem) :
    checkAll (before ++ item :: after) check = .error problem := by
  have hforM (items more : List (α × Nat)) (f : α × Nat → Except ConfigProblem Unit) :
      (items ++ more).forM f = (items.forM f >>= fun _ => more.forM f) :=
    List.forM_append
  rw [checkAll] at hbefore ⊢
  rw [List.zipIdx_append, hforM, hbefore, List.zipIdx_cons, Nat.zero_add]
  show (check before.length item >>= _) = _
  rw [h]
  rfl

namespace SuiteConfig

variable {c : SuiteConfig} {before after : List String} {n : String}

/-- A configuration with properties is valid if the one without them is, and all of them are names. -/
theorem check_properties_eq_ok {properties : List String} :
    { c with requiresProperties := properties }.check = .ok () ↔
      { c with requiresProperties := [] }.check = .ok () ∧
        ∀ name ∈ properties, isPropertyName name = true := by
  have hdirectories : { c with requiresProperties := properties }.checkDirectories
      = { c with requiresProperties := [] }.checkDirectories := rfl
  rw [check, check, check_bind_eq_ok, check_bind_eq_ok, checkSuite_eq_ok, checkSuite_eq_ok,
    hdirectories]
  simp only [List.not_mem_nil, false_implies, implies_true, true_and]
  tauto

/-- The first property that is no name is the problem of a configuration that is otherwise valid. -/
theorem check_properties_eq_error
    (h : { c with requiresProperties := before ++ after }.check = .ok ())
    (hn : isPropertyName n = false) :
    { c with requiresProperties := before ++ n :: after }.check
      = .error (.notPropertyName before.length n) := by
  obtain ⟨hrest, hnames⟩ := check_properties_eq_ok.mp h
  have hkeys := (checkSuite_eq_ok.mp (check_bind_eq_ok.mp hrest).1).1
  have hfirst : checkAll (before ++ n :: after) (fun index name =>
      if isPropertyName name then .ok () else .error (.notPropertyName index name))
        = .error (.notPropertyName before.length n) := by
    refine checkAll_eq_error (checkEach_eq_ok.mpr fun name hname => ?_) (by rw [hn]; rfl)
    exact hnames name (List.mem_append_left after hname)
  rw [check, checkSuite]
  dsimp only
  rw [hfirst]
  cases hc : c.keys with
  | none => rfl
  | some keys =>
      simp only
      rw [hkeys keys hc]
      rfl

/-- Among the properties of a suite, a text is accepted exactly if it is read as the name that it
spells; if not, it is what is wrong. Requirements of the suite may refer to each of its properties. -/
theorem check_property_iff (c : SuiteConfig) (before after : List String)
    (hsize : n.utf8ByteSize ≤ 65536) (htrue : n ≠ "true") (hfalse : n ≠ "false") :
    let without := { c with requiresProperties := before ++ after }
    let including := { c with requiresProperties := before ++ n :: after }
    (including.check = .ok () ↔ without.check = .ok () ∧ Expr.parse n = .ok (.name n)) ∧
    (without.check = .ok () → Expr.parse n ≠ .ok (.name n) →
      including.check = .error (.notPropertyName before.length n)) ∧
    (Expr.name n).checkNames including.knownNames.knows = .ok () := by
  intro without including
  have hname := isPropertyName_iff_parse hsize htrue hfalse
  refine ⟨?_, fun hvalid hparse => ?_, ?_⟩
  · have hwithout := @check_properties_eq_ok c (before ++ after)
    have hincluding := @check_properties_eq_ok c (before ++ n :: after)
    rw [hwithout, hincluding, ← hname]
    simp only [List.forall_mem_append, List.forall_mem_cons]
    tauto
  · exact check_properties_eq_error hvalid (by rwa [← Bool.not_eq_true, hname])
  · rw [Expr.checkNames_name]
    exact KnownNames.knows_withNames (List.mem_append_right before List.mem_cons_self)

/-- A piece behind a point may start with a digit, but there has to be one. -/
theorem check_property_iff_pieces :
    let valid := { default with requiresProperties := ["vm.flavor", "vm.64bit"] }
    let refused := { default with requiresProperties := ["vm.flavor", "vm..cds"] }
    valid.check = .ok () ∧ Expr.parse "vm.64bit" = .ok (.name "vm.64bit") ∧
      (Expr.name "vm.64bit").checkNames valid.knownNames.knows = .ok () ∧
      Expr.parse "vm..cds" ≠ .ok (.name "vm..cds") ∧
      refused.check = .error (.notPropertyName 1 "vm..cds") := by
  intro valid refused
  obtain ⟨hvalid, -, hknown⟩ := check_property_iff (n := "vm.64bit") default ["vm.flavor"] []
    (by decide) (by decide) (by decide)
  obtain ⟨-, hrefused, -⟩ := check_property_iff (n := "vm..cds") default ["vm.flavor"] []
    (by decide) (by decide) (by decide)
  have hwithout : { default with requiresProperties := ["vm.flavor"] }.check = .ok () := by
    decide +kernel
  have hparse : Expr.parse "vm.64bit" = .ok (.name "vm.64bit") := by decide +kernel
  have hpoints : Expr.parse "vm..cds" ≠ .ok (.name "vm..cds") := by decide +kernel
  exact ⟨hvalid.mpr ⟨hwithout, hparse⟩, hparse, hknown, hpoints, hrefused hwithout hpoints⟩

end SuiteConfig

end TestSelection
