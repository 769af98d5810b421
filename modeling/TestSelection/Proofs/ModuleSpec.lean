import TestSelection.ModuleSpec
import TestSelection.Proofs.Cuts
import TestSelection.Proofs.Except

/-!
Reading module entries. Names have neither slashes nor colons in them, and kinds of access no
commas, so an entry can be cut in one way only: what is read is exactly what the text is written
for.
-/

namespace TestSelection

namespace ModuleAccess

variable {a : ModuleAccess} {s : String}

theorem ofText?_eq_some : ofText? s = some a ↔ a.text = s := by
  constructor
  · intro h
    have hfind : all.find? (·.text == s) = some a := h
    have htext := List.find?_some hfind
    exact beq_iff_eq.mp htext
  · rintro rfl
    cases a <;> rfl

theorem comma_notMem_text : ',' ∉ a.text.toList := by
  cases a <;> decide

/-- How kinds of access are written behind a package. -/
def suffix : List ModuleAccess → List Char
  | [] => []
  | access => ':' :: [','].intercalate (access.map (·.text.toList))

end ModuleAccess

namespace ModuleSpec

variable {m : ModuleSpec} {c : Char} {s module package rest before after : List Char}
  {access : List ModuleAccess} {token : String}

/-! ### Names -/

theorem notMem_of_isQualifiedName (h : isQualifiedName s = true) (hpoint : c ≠ '.')
    (hc : continuesIdentifier c = false) : c ∉ s := by
  intro hmem
  rw [← Chars.intercalate_splitAt '.' s] at hmem
  rcases Chars.mem_intercalate hmem with rfl | ⟨piece, hpiece, hmem⟩
  · exact hpoint rfl
  · have hidentifier := List.all_eq_true.mp h piece hpiece
    cases piece with
    | nil => exact nomatch hmem
    | cons first rest =>
        have hall := (Bool.and_eq_true_iff.mp hidentifier).2
        exact absurd (List.all_eq_true.mp hall c hmem) (by simp [hc])

theorem slash_notMem (h : isQualifiedName s = true) : '/' ∉ s :=
  notMem_of_isQualifiedName h (by decide) (by decide)

theorem colon_notMem (h : isQualifiedName s = true) : ':' ∉ s :=
  notMem_of_isQualifiedName h (by decide) (by decide)

/-! ### Kinds of access -/

theorem readAccess_eq_ok :
    readAccess s = .ok access ↔ Chars.splitAt ',' s = access.map (·.text.toList) := by
  rw [readAccess, mapM_eq_ok, ← List.forall₂_eq_eq_eq, List.forall₂_map_right_iff]
  constructor
  · apply List.Forall₂.imp
    intro piece a h
    split at h
    · rename_i found hfound
      obtain rfl := Except.ok.inj h
      rw [ModuleAccess.ofText?_eq_some.mp hfound, String.toList_ofList]
    · exact nomatch h
  · apply List.Forall₂.imp
    rintro _ a rfl
    rw [String.ofList_toList, ModuleAccess.ofText?_eq_some.mpr rfl]

theorem splitAt_texts (h : access ≠ []) :
    Chars.splitAt ',' ([','].intercalate (access.map (·.text.toList)))
      = access.map (·.text.toList) := by
  refine Chars.splitAt_intercalate (by simpa using h) fun piece hpiece => ?_
  obtain ⟨a, -, rfl⟩ := List.mem_map.mp hpiece
  exact ModuleAccess.comma_notMem_text

/-- Without a colon there are no kinds of access. -/
theorem eq_append_suffix_of_notMem (h : ':' ∉ rest) :
    rest = package ++ ModuleAccess.suffix access ↔ package = rest ∧ access = [] := by
  constructor
  · intro hrest
    cases access with
    | nil => exact ⟨by rw [hrest, ModuleAccess.suffix, List.append_nil], rfl⟩
    | cons a access => exact absurd (hrest ▸ by simp [ModuleAccess.suffix]) h
  · rintro ⟨rfl, rfl⟩
    exact (List.append_nil package).symm

/-- Kinds of access are what follows the first colon. -/
theorem eq_append_suffix_of_cut (hpackage : ':' ∉ package) (hbefore : ':' ∉ before) :
    before ++ ':' :: after = package ++ ModuleAccess.suffix access ↔
      package = before ∧ readAccess after = .ok access := by
  rw [readAccess_eq_ok]
  constructor
  · intro h
    cases access with
    | nil =>
        rw [ModuleAccess.suffix, List.append_nil] at h
        exact absurd (h ▸ by simp) hpackage
    | cons a access =>
        obtain ⟨rfl, rfl⟩ := Chars.append_inj_of_notMem hbefore hpackage h
        exact ⟨rfl, splitAt_texts (List.cons_ne_nil _ _)⟩
  · rintro ⟨rfl, hsplit⟩
    cases access with
    | nil => exact absurd hsplit (Chars.splitBy_ne_nil _)
    | cons a access =>
        rw [ModuleAccess.suffix, ← hsplit, Chars.intercalate_splitAt]
        exact List.cons_ne_nil _ _

/-! ### Entries -/

theorem parse_eq_ok_of_notMem (h : '/' ∉ token.toList) :
    parse token = .ok m ↔ isQualifiedName token.toList = true ∧ m = ⟨token, none, []⟩ := by
  simp only [parse, Chars.cut_of_not_mem h]
  cases isQualifiedName token.toList with
  | false => simp
  | true => simp [eq_comm]

/-- What follows the first slash is a package, alone or with kinds of access behind a colon. -/
theorem parse_eq_ok_of_slash (h : '/' ∉ module) (htoken : token.toList = module ++ '/' :: rest) :
    parse token = .ok m ↔ isQualifiedName module = true ∧
      ∃ package access, isQualifiedName package = true ∧
        rest = package ++ ModuleAccess.suffix access ∧
        m = ⟨String.ofList module, some (String.ofList package), access⟩ := by
  have hslash : Chars.cut '/' token.toList = some (module, rest) :=
    htoken ▸ Chars.cut_append h rest
  simp only [parse, hslash]
  cases hmodule : isQualifiedName module with
  | false => simp
  | true =>
      rw [eq_self_iff_true, true_and, Bool.not_true, if_neg Bool.false_ne_true]
      rcases Chars.cut_cases ':' rest with ⟨hcolon, hcut⟩ | ⟨before, after, hbefore, rfl, hcut⟩
      · simp only [hcut, eq_append_suffix_of_notMem hcolon]
        cases hpackage : isQualifiedName rest with
        | false => simp [hpackage]
        | true => simp [hpackage, pure, Except.pure, bind, Except.bind, eq_comm]
      · simp only [hcut]
        constructor
        · intro hparse
          split_ifs at hparse with hpackage
          obtain ⟨access, haccess, hm⟩ := bind_eq_ok.mp hparse
          exact ⟨before, access, by simpa using hpackage,
            (eq_append_suffix_of_cut hbefore hbefore).mpr ⟨rfl, haccess⟩, (Except.ok.inj hm).symm⟩
        · rintro ⟨package, access, hpackage, hrest, rfl⟩
          obtain ⟨rfl, haccess⟩ :=
            (eq_append_suffix_of_cut (colon_notMem hpackage) hbefore).mp hrest
          rw [hpackage, haccess]
          rfl

/-- A module entry that can be written: names are qualified names, and access is to a package. -/
structure WellFormed (m : ModuleSpec) : Prop where
  module : isQualifiedName m.module.toList = true
  package : ∀ package, m.package = some package → isQualifiedName package.toList = true
  access : m.package = none → m.access = []

theorem toList_render (module package : String) (access : List ModuleAccess) :
    (render ⟨module, some package, access⟩).toList
      = module.toList ++ '/' :: (package.toList ++ ModuleAccess.suffix access) := by
  cases access with
  | nil => simp [render, ModuleAccess.suffix]
  | cons a rest =>
      simp [render, ModuleAccess.suffix, String.toList_intercalate]
      rfl

/-- Exactly the texts that entries are written as are read, each as its entry. -/
theorem parse_eq_ok_iff : parse token = .ok m ↔ m.WellFormed ∧ m.render = token := by
  rcases Chars.cut_cases '/' token.toList with ⟨hslash, -⟩ | ⟨module, rest, hmodule, htoken, -⟩
  · rw [parse_eq_ok_of_notMem hslash]
    constructor
    · rintro ⟨hname, rfl⟩
      exact ⟨⟨hname, nofun, fun _ => rfl⟩, rfl⟩
    · rintro ⟨hm, rfl⟩
      obtain ⟨module, package, access⟩ := m
      cases package with
      | none =>
          obtain rfl := hm.access rfl
          exact ⟨hm.module, rfl⟩
      | some package =>
          rw [toList_render] at hslash
          exact absurd (by simp) hslash
  · rw [parse_eq_ok_of_slash hmodule htoken]
    constructor
    · rintro ⟨hname, package, access, hpackage, rfl, rfl⟩
      refine ⟨⟨by rwa [String.toList_ofList], ?_, nofun⟩, ?_⟩
      · rintro _ ⟨⟩
        rwa [String.toList_ofList]
      · rw [← String.toList_inj, toList_render, htoken, String.toList_ofList, String.toList_ofList]
    · rintro ⟨hm, rfl⟩
      obtain ⟨name, package, access⟩ := m
      cases package with
      | none =>
          have hrender : (render ⟨name, none, access⟩).toList = name.toList := rfl
          exact absurd (by rw [← hrender, htoken]; simp) (slash_notMem hm.module)
      | some package =>
          rw [toList_render] at htoken
          obtain ⟨rfl, rfl⟩ := Chars.append_inj_of_notMem (slash_notMem hm.module) hmodule htoken
          exact ⟨hm.module, package.toList, access, hm.package package rfl, rfl, by simp⟩

/-- A package, alone or with kinds of access to it behind a colon. -/
def IsPackageText (s : List Char) : Prop :=
  ∃ package access, isQualifiedName package = true ∧ s = package ++ ModuleAccess.suffix access

/-- An entry is read if its module has a qualified name and what follows the first slash, if there
is one, is a package. -/
theorem exists_parse_eq_ok :
    (∃ m, parse token = .ok m) ↔ isQualifiedName (token.toList.takeWhile (· != '/')) = true ∧
      ∀ module rest, '/' ∉ module → token.toList = module ++ '/' :: rest → IsPackageText rest := by
  rcases Chars.cut_cases '/' token.toList with ⟨hslash, -⟩ | ⟨module, rest, hmodule, htoken, -⟩
  · simp only [parse_eq_ok_of_notMem hslash, Chars.takeWhile_of_notMem hslash, exists_and_left,
      exists_eq, and_true]
    refine ⟨fun hname => ⟨hname, fun module rest _ htoken => ?_⟩, And.left⟩
    exact absurd (htoken ▸ by simp) hslash
  · have hname : token.toList.takeWhile (· != '/') = module := by
      rw [htoken, Chars.takeWhile_append_of_notMem hmodule]
    simp only [parse_eq_ok_of_slash hmodule htoken, hname, exists_and_left]
    refine and_congr_right fun _ => ⟨?_, fun h => ?_⟩
    · rintro ⟨m, package, hpackage, access, hrest, -⟩ module' rest' hmodule' htoken'
      obtain ⟨-, rfl⟩ :=
        Chars.append_inj_of_notMem hmodule hmodule' (htoken.symm.trans htoken')
      exact ⟨package, access, hpackage, hrest⟩
    · obtain ⟨package, access, hpackage, hrest⟩ := h module rest hmodule htoken
      exact ⟨_, package, hpackage, access, hrest, rfl⟩

end ModuleSpec

end TestSelection
