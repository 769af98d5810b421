import TestSelection.Proofs.Context.Changes
import TestSelection.Proofs.Cuts

/-!
What the options of a virtual machine add to a context. The forms of options overlap in one place
only: a switch that is turned on may name a collector, and then it does not count as a flag. So an
option gives one fact at most. Of the options for a name the first one counts, and only where there
was no entry before. Among the facts that are set, on the other hand, the last one counts, and all
that is known of a target besides its options is set before they are looked at.
-/

namespace TestSelection

namespace VmOption

variable {option name value flag gc : String}

/-! ### The forms of an option -/

/-- The fact that an option gives, by the form of the option. -/
inductive Gives : String → String → String → Prop
  | collector {gc : String} (h : isFlagName gc = true) :
      Gives ("-XX:+Use" ++ gc ++ "GC") "vm.gc" gc
  | compMode {mode : String} (h : mode ∈ ["Xint", "Xmixed", "Xcomp"]) :
      Gives ("-" ++ mode) "vm.compMode" mode
  | assigned {flag value : String} (h : isFlagName flag = true) :
      Gives ("-XX:" ++ flag ++ "=" ++ value) (flagFact flag) value
  | enabled {flag : String} (h : isFlagName flag = true)
      (hflag : ∀ gc, isFlagName gc = true → flag ≠ "Use" ++ gc ++ "GC") :
      Gives ("-XX:+" ++ flag) (flagFact flag) "true"
  | disabled {flag : String} (h : isFlagName flag = true) :
      Gives ("-XX:-" ++ flag) (flagFact flag) "false"

theorem isWordChar_of_isFlagName (h : isFlagName flag = true) :
    ∀ c ∈ flag.toList, Chars.isWordChar c = true :=
  List.all_eq_true.mp (Bool.and_eq_true_iff.mp h).2

theorem toList_ne_nil_of_isFlagName (h : isFlagName flag = true) : flag.toList ≠ [] := by
  intro hnil
  obtain rfl : flag = "" := String.toList_injective hnil
  exact absurd h (by decide)

theorem equals_notMem_of_isFlagName (h : isFlagName flag = true) : '=' ∉ flag.toList := fun hmem =>
  absurd (isWordChar_of_isFlagName h '=' hmem) (by decide)

/-! ### Collectors -/

theorem collector?_eq_some_iff :
    collector? option = some gc ↔ isFlagName gc = true ∧ option = "-XX:+Use" ++ gc ++ "GC" := by
  rw [collector?, Option.filter_eq_some_iff, Option.bind_eq_some_iff, and_comm]
  refine and_congr_right fun _ => ⟨?_, fun h => ?_⟩
  · rintro ⟨rest, hrest, hgc⟩
    rw [Text.after?_eq_some_iff] at hrest
    rw [Text.before?_eq_some_iff] at hgc
    rw [hrest, hgc, String.append_assoc]
  · refine ⟨gc ++ "GC", ?_, Text.before?_eq_some_iff.mpr rfl⟩
    rw [Text.after?_eq_some_iff, h, String.append_assoc]

theorem collector?_enabled_eq_some_iff :
    collector? ("-XX:+" ++ flag) = some gc ↔
      isFlagName gc = true ∧ flag = "Use" ++ gc ++ "GC" := by
  rw [collector?_eq_some_iff, ← String.toList_inj, ← String.toList_inj]
  simp [String.toList_append]

theorem collector?_switch {rest : String} (h : ∀ more, rest.toList ≠ '+' :: more) :
    collector? ("-XX:" ++ rest) = none := by
  rw [Option.eq_none_iff_forall_ne_some]
  intro gc hgc
  obtain ⟨-, heq⟩ := collector?_eq_some_iff.mp hgc
  have hrest := congrArg String.toList heq
  simp only [String.toList_append] at hrest
  exact h _ (List.append_cancel_left hrest)

/-! ### Switches -/

theorem switch_plus {rest : String} {flag : List Char} (h : rest.toList = '+' :: flag) :
    "-XX:" ++ rest = "-XX:+" ++ String.ofList flag := by
  rw [← String.toList_inj]
  simp [String.toList_append, h]

theorem switch_minus {rest : String} {flag : List Char} (h : rest.toList = '-' :: flag) :
    "-XX:" ++ rest = "-XX:-" ++ String.ofList flag := by
  rw [← String.toList_inj]
  simp [String.toList_append, h]

/-- What a switch gives if it names no collector. -/
theorem fact?_switch {rest : String} (h : collector? ("-XX:" ++ rest) = none) :
    fact? ("-XX:" ++ rest) = match Text.cut '=' rest with
      | some (flag, value) => if isFlagName flag then some (flagFact flag, value) else none
      | none =>
        match rest.toList with
        | '+' :: flag =>
          if isFlagName (String.ofList flag) then some (flagFact (String.ofList flag), "true")
          else none
        | '-' :: flag =>
          if isFlagName (String.ofList flag) then some (flagFact (String.ofList flag), "false")
          else none
        | _ => none := by
  have hmode : ["-Xint", "-Xmixed", "-Xcomp"].contains ("-XX:" ++ rest) = false := by
    rw [List.contains_eq_mem, decide_eq_false_iff_not]
    intro hmem
    have hlists := List.mem_map_of_mem (f := String.toList) hmem
    simp [String.toList_append] at hlists
  rw [fact?, h, hmode, Text.after?_eq_some_iff.mpr rfl]
  rfl

theorem cut_assigned (h : isFlagName flag = true) (value : String) :
    Text.cut '=' (flag ++ "=" ++ value) = some (flag, value) := by
  have htext : (flag ++ "=" ++ value).toList = flag.toList ++ '=' :: value.toList := by
    simp [String.toList_append]
  rw [Text.cut, htext, Chars.cut_append (equals_notMem_of_isFlagName h), Option.map_some]
  simp only [String.ofList_toList]

theorem eq_assigned_of_cut {rest : String} (h : Text.cut '=' rest = some (flag, value)) :
    rest = flag ++ "=" ++ value := by
  rw [Text.cut, Option.map_eq_some_iff] at h
  obtain ⟨⟨before, after⟩, hcut, heq⟩ := h
  obtain ⟨rfl, rfl⟩ := Prod.mk.inj heq
  rcases Chars.cut_cases '=' rest.toList with ⟨-, hnone⟩ | ⟨before', after', -, hrest, hsome⟩
  · exact nomatch hnone.symm.trans hcut
  · obtain ⟨rfl, rfl⟩ := Prod.mk.inj (Option.some.inj (hsome.symm.trans hcut))
    rw [← String.toList_inj, hrest]
    simp [String.toList_append]

theorem cut_signed (h : isFlagName flag = true) {sign : Char} (hsign : sign ≠ '=') :
    Text.cut '=' (String.ofList (sign :: flag.toList)) = none := by
  have hmem : '=' ∉ sign :: flag.toList := by
    rintro (_ | ⟨_, hmem⟩)
    · exact hsign rfl
    · exact equals_notMem_of_isFlagName h hmem
  rw [Text.cut, String.toList_ofList, Chars.cut_of_not_mem hmem, Option.map_none]

/-! ### Facts by forms -/

theorem fact?_assigned (h : isFlagName flag = true) (value : String) :
    fact? ("-XX:" ++ flag ++ "=" ++ value) = some (flagFact flag, value) := by
  have hoption : "-XX:" ++ flag ++ "=" ++ value = "-XX:" ++ (flag ++ "=" ++ value) := by
    simp only [String.append_assoc]
  have hnone : collector? ("-XX:" ++ (flag ++ "=" ++ value)) = none := by
    refine collector?_switch fun more hmore => ?_
    obtain ⟨c, rest, hflag⟩ := List.exists_cons_of_ne_nil (toList_ne_nil_of_isFlagName h)
    have hword := isWordChar_of_isFlagName h c (hflag ▸ List.mem_cons_self)
    rw [String.toList_append, String.toList_append, hflag] at hmore
    rw [(List.cons.inj hmore).1] at hword
    exact absurd hword (by decide)
  rw [hoption, fact?_switch hnone, cut_assigned h]
  exact if_pos h

theorem fact?_enabled (h : isFlagName flag = true)
    (hflag : ∀ gc, isFlagName gc = true → flag ≠ "Use" ++ gc ++ "GC") :
    fact? ("-XX:+" ++ flag) = some (flagFact flag, "true") := by
  have hnone : collector? ("-XX:+" ++ flag) = none := by
    rw [Option.eq_none_iff_forall_ne_some]
    intro gc hgc
    obtain ⟨hname, heq⟩ := collector?_enabled_eq_some_iff.mp hgc
    exact hflag gc hname heq
  have hoption := switch_plus (String.toList_ofList (l := '+' :: flag.toList))
  rw [String.ofList_toList] at hoption
  rw [← hoption] at hnone ⊢
  rw [fact?_switch hnone, cut_signed h (by decide), String.toList_ofList]
  simp only [String.ofList_toList, if_pos h]

theorem fact?_disabled (h : isFlagName flag = true) :
    fact? ("-XX:-" ++ flag) = some (flagFact flag, "false") := by
  have hnone : collector? ("-XX:" ++ String.ofList ('-' :: flag.toList)) = none := by
    refine collector?_switch fun more hmore => ?_
    rw [String.toList_ofList] at hmore
    exact absurd (List.cons.inj hmore).1 (by decide)
  have hoption := switch_minus (String.toList_ofList (l := '-' :: flag.toList))
  rw [String.ofList_toList] at hoption
  rw [← hoption, fact?_switch hnone, cut_signed h (by decide), String.toList_ofList]
  simp only [String.ofList_toList, if_pos h]

theorem Gives.fact?_eq (h : Gives option name value) : fact? option = some (name, value) := by
  cases h with
  | collector h => rw [fact?, collector?_eq_some_iff.mpr ⟨h, rfl⟩]
  | compMode h =>
      have hmodes : ∀ mode ∈ ["Xint", "Xmixed", "Xcomp"],
          fact? ("-" ++ mode) = some ("vm.compMode", mode) := by
        decide
      exact hmodes _ h
  | assigned h => exact fact?_assigned h value
  | enabled h hflag => exact fact?_enabled h hflag
  | disabled h => exact fact?_disabled h

theorem gives_of_switch {rest : String} (hgc : collector? ("-XX:" ++ rest) = none)
    (h : fact? ("-XX:" ++ rest) = some (name, value)) : Gives ("-XX:" ++ rest) name value := by
  rw [fact?_switch hgc] at h
  cases hcut : Text.cut '=' rest with
  | some assignment =>
      obtain ⟨flag, assigned⟩ := assignment
      rw [hcut] at h
      dsimp only at h
      split_ifs at h with hflag
      obtain ⟨rfl, rfl⟩ := Prod.mk.inj (Option.some.inj h)
      rw [eq_assigned_of_cut hcut, ← String.append_assoc, ← String.append_assoc]
      exact .assigned hflag
  | none =>
      rw [hcut] at h
      dsimp only at h
      split at h
      · rename_i flag hsign
        split_ifs at h with hflag
        obtain ⟨rfl, rfl⟩ := Prod.mk.inj (Option.some.inj h)
        rw [switch_plus hsign] at hgc ⊢
        refine .enabled hflag fun gc hname heq => ?_
        have hsome := collector?_enabled_eq_some_iff.mpr ⟨hname, heq⟩
        exact nomatch hgc.symm.trans hsome
      · rename_i flag hsign
        split_ifs at h with hflag
        obtain ⟨rfl, rfl⟩ := Prod.mk.inj (Option.some.inj h)
        rw [switch_minus hsign]
        exact .disabled hflag
      · exact nomatch h

/-- An option is read by its form, and what is of none of the forms gives nothing. -/
theorem fact?_eq_some_iff : fact? option = some (name, value) ↔ Gives option name value := by
  refine ⟨fun h => ?_, Gives.fact?_eq⟩
  cases hgc : collector? option with
  | some gc =>
      obtain ⟨hname, rfl⟩ := collector?_eq_some_iff.mp hgc
      rw [fact?, hgc] at h
      obtain ⟨rfl, rfl⟩ := Prod.mk.inj (Option.some.inj h)
      exact .collector hname
  | none =>
      by_cases hmode : option ∈ ["-Xint", "-Xmixed", "-Xcomp"]
      · have hmodes : ∀ option ∈ ["-Xint", "-Xmixed", "-Xcomp"],
            ∃ mode ∈ ["Xint", "Xmixed", "Xcomp"], option = "-" ++ mode ∧
              fact? option = some ("vm.compMode", mode) := by
          decide
        obtain ⟨mode, hmem, rfl, hfact⟩ := hmodes option hmode
        obtain ⟨rfl, rfl⟩ := Prod.mk.inj (Option.some.inj (hfact.symm.trans h))
        exact .compMode hmem
      · cases hrest : Text.after? "-XX:" option with
        | none => simp [fact?, hgc, hmode, hrest] at h
        | some rest =>
            obtain rfl := Text.after?_eq_some_iff.mp hrest
            exact gives_of_switch hgc h

/-! ### The first option -/

/-- The first of the options that give a fact of the name gives it the value. -/
def FirstGives (options : List String) (name value : String) : Prop :=
  ∃ before option after, options = before ++ option :: after ∧ Gives option name value ∧
    ∀ earlier ∈ before, ∀ other, ¬ Gives earlier name other

theorem firstGives_cons {options : List String} :
    FirstGives (option :: options) name value ↔
      Gives option name value ∨
        (∀ other, ¬ Gives option name other) ∧ FirstGives options name value := by
  constructor
  · rintro ⟨before, given, after, heq, hgives, hbefore⟩
    cases before with
    | nil =>
        obtain ⟨rfl, rfl⟩ := List.cons.inj heq
        exact Or.inl hgives
    | cons head before =>
        obtain ⟨rfl, rfl⟩ := List.cons.inj heq
        obtain ⟨hhead, hbefore⟩ := List.forall_mem_cons.mp hbefore
        exact Or.inr ⟨hhead, before, given, after, rfl, hgives, hbefore⟩
  · rintro (hgives | ⟨hhead, before, given, after, rfl, hgives, hbefore⟩)
    · exact ⟨[], option, options, rfl, hgives, fun _ h => nomatch h⟩
    · exact ⟨option :: before, given, after, rfl, hgives,
        List.forall_mem_cons.mpr ⟨hhead, hbefore⟩⟩

theorem firstGives_iff {options : List String} :
    FirstGives options name value ↔
      Table.find? name (options.filterMap fact?) = some value := by
  induction options with
  | nil =>
      refine ⟨?_, fun h => nomatch h⟩
      rintro ⟨before, option, after, heq, -⟩
      exact absurd heq.symm (by simp)
  | cons option options ih =>
      rw [firstGives_cons, ih, List.filterMap_cons]
      simp only [← fact?_eq_some_iff]
      cases fact? option with
      | none => simp
      | some given =>
          obtain ⟨n, v⟩ := given
          by_cases h : n = name <;> simp [Table.find?, h]

end VmOption

namespace Context

variable {c : Context} {name value : String}

theorem setNew_of_get? (h : c.get? name ≠ none) : c.setNew name value = c := by
  have hcontains : c.facts.contains name = true := Option.isSome_iff_ne_none.mpr h
  rw [setNew, Table.insertNew, if_pos hcontains]

theorem withVmOption_of_mem {options : List String} {option : String} (h : option ∈ options) :
    (c.withVmOptions options).withVmOption option = c.withVmOptions options := by
  unfold withVmOption
  cases hfact : VmOption.fact? option with
  | none => rfl
  | some given =>
      obtain ⟨name, value⟩ := given
      refine setNew_of_get? ?_
      have hgiven : Table.find? name (options.filterMap VmOption.fact?) ≠ none := by
        rw [Ne, Table.find?_eq_none_iff, not_not]
        exact List.mem_map.mpr ⟨_, List.mem_filterMap.mpr ⟨option, h, hfact⟩, rfl⟩
      rw [get?_withVmOptions]
      simp [hgiven]

theorem withVmOptions_again {options again : List String} (h : ∀ option ∈ again, option ∈ options) :
    (c.withVmOptions options).withVmOptions again = c.withVmOptions options := by
  induction again with
  | nil => rfl
  | cons option again ih =>
      obtain ⟨hoption, hagain⟩ := List.forall_mem_cons.mp h
      calc (c.withVmOptions options).withVmOptions (option :: again)
          = ((c.withVmOptions options).withVmOption option).withVmOptions again := rfl
        _ = (c.withVmOptions options).withVmOptions again := by rw [withVmOption_of_mem hoption]
        _ = c.withVmOptions options := ih hagain

/-- A fact is the last one to be set under its name. -/
def SetLast (settings : List (String × Fact)) (name : String) (fact : Fact) : Prop :=
  ∃ before after, settings = before ++ (name, fact) :: after ∧ ∀ later ∈ after, later.1 ≠ name

theorem setLast_iff {settings : List (String × Fact)} {fact : Fact} :
    SetLast settings name fact ↔ Table.find? name settings.reverse = some fact := by
  rw [Table.find?_eq_some_iff]
  constructor
  · rintro ⟨before, after, rfl, hafter⟩
    refine ⟨after.reverse, before.reverse, by simp, fun e he => ?_⟩
    exact hafter e (List.mem_reverse.mp he)
  · rintro ⟨before, after, heq, hbefore⟩
    refine ⟨after.reverse, before.reverse, ?_, fun e he => ?_⟩
    · rw [← List.reverse_reverse settings, heq]
      simp
    · exact hbefore e (List.mem_reverse.mp he)

end Context

namespace ContextBuilder

open TestSelection.Context

/-- Everything that is set for a target before its options are looked at, in order. -/
def settings (b : ContextBuilder) : List (String × Fact) :=
  [(nullText, .value nullText)] ++ b.properties.entries ++ b.version.toList.flatMap versionFacts
    ++ b.os.toList.flatMap osFacts ++ [(threadFactoryFact, .value (b.threadFactory.getD nullText))]

theorem settings_eq (b : ContextBuilder) : b.settings = (nullText, .value nullText) :: b.facts := by
  unfold settings facts
  cases b.version <;> cases b.os <;> simp

theorem get?_build (b : ContextBuilder) (name : String) :
    b.build.get? name = (Table.find? name b.settings.reverse).or
      ((Table.find? name (b.vmOptions.filterMap VmOption.fact?)).map .value) := by
  have hempty : Context.empty.get? name
      = Table.find? name [(nullText, Fact.value nullText)] := rfl
  have hset : (b.facts.foldl (fun c p => c.put p.1 p.2) Context.empty).get? name
      = Table.find? name b.settings.reverse := by
    rw [get?_foldl_put, hempty, settings_eq, List.reverse_cons, Table.find?_append]
  rw [← hset]
  exact get?_withVmOptions _ _ _

end ContextBuilder

namespace Context

open VmOption (FirstGives firstGives_iff)

/-- Options only add to a context, the first for a name before the others, and to one that is built
for a target they add after all else that is known of it. -/
theorem withVmOptions_firstSet :
    (∀ (c : Context) (options : List String) (name : String) (fact : Fact),
      (c.withVmOptions options).get? name = some fact ↔
        c.get? name = some fact ∨
          c.get? name = none ∧ ∃ value, fact = .value value ∧ FirstGives options name value) ∧
    (∀ (c : Context) (first second : List String),
      (c.withVmOptions first).withVmOptions second = c.withVmOptions (first ++ second)) ∧
    (∀ (c : Context) (options again : List String), (∀ option ∈ again, option ∈ options) →
      (c.withVmOptions options).withVmOptions again = c.withVmOptions options) ∧
    ∀ (b : ContextBuilder) (name : String) (fact : Fact),
      b.build.get? name = some fact ↔
        SetLast b.settings name fact ∨ (∀ setting ∈ b.settings, setting.1 ≠ name) ∧
          ∃ value, fact = .value value ∧ FirstGives b.vmOptions name value := by
  refine ⟨fun c options name fact => ?_, fun c first second => List.foldl_append.symm,
    fun c options again => withVmOptions_again, fun b name fact => ?_⟩
  · rw [get?_withVmOptions, Option.or_eq_some_iff, Option.map_eq_some_iff]
    simp only [firstGives_iff, and_comm, eq_comm]
  · have hnone : (∀ setting ∈ b.settings, setting.1 ≠ name) ↔
        Table.find? name b.settings.reverse = none := by
      rw [Table.find?_eq_none_iff, List.map_reverse, List.mem_reverse, List.mem_map]
      exact ⟨fun h ⟨setting, hmem, heq⟩ => h setting hmem heq,
        fun h setting hmem heq => h ⟨setting, hmem, heq⟩⟩
    rw [ContextBuilder.get?_build, Option.or_eq_some_iff, Option.map_eq_some_iff, setLast_iff, hnone]
    simp only [firstGives_iff, and_comm, eq_comm]

/-- A collector that could not be determined stays so, and a switch that only looks like one that
names a collector is a flag, before the value that a later option has for it. -/
theorem withVmOptions_firstSet_overlapping :
    let c := Context.empty.setUnknown "vm.gc" "no collector"
    let options := ["-XX:+UseZGC", "-Xcomp", "-Xint", "-XX:+UseGC", "-XX:UseGC=4g"]
    let again := ["-Xint", "-XX:UseGC=4g"]
    let later := c.withVmOptions options
    let builder : ContextBuilder := { ContextBuilder.empty with
      properties := Table.empty.insert "jdk.version" (.value "8"), version := some "17.0.2" }
    later.get? "vm.gc" = some (.unknown "no collector") ∧
      FirstGives options "vm.opt.UseGC" "true" ∧
      later.get? "vm.opt.UseGC" = some (.value "true") ∧
      (∀ option ∈ again, option ∈ options) ∧ later.withVmOptions again = later ∧
      SetLast builder.settings "jdk.version" (.value "17.0.2") ∧
      builder.build.get? "jdk.version" = some (.value "17.0.2") := by
  intro c options again later builder
  obtain ⟨hfirst, -, hagain, hbuild⟩ := withVmOptions_firstSet
  have hgives : FirstGives options "vm.opt.UseGC" "true" := firstGives_iff.mpr (by decide +kernel)
  have hnew : c.get? "vm.opt.UseGC" = none := by decide +kernel
  have hsubset : ∀ option ∈ again, option ∈ options := by decide +kernel
  have hlast : SetLast builder.settings "jdk.version" (.value "17.0.2") :=
    setLast_iff.mpr (by decide +kernel)
  exact ⟨(hfirst c options _ _).mpr (Or.inl (by decide +kernel)), hgives,
    (hfirst c options _ _).mpr (Or.inr ⟨hnew, _, rfl, hgives⟩), hsubset,
    hagain c options again hsubset, hlast, (hbuild builder _ _).mpr (Or.inl hlast)⟩

end Context

end TestSelection
