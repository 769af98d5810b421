import Mathlib.Data.List.Basic
import TestSelection.Action
import TestSelection.Proofs.Lines
import TestSelection.Proofs.Lists

/-!
Actions that are written and read again. A name and options in which there are neither slashes nor
blanks are cut apart at the slashes, and the first blank is in front of the arguments, so an action
of such parts is read as itself. What is read from any text is an action of such parts.
-/

namespace TestSelection.Action

variable {a : Action} {text : String} {byAuthor : Bool} {front args s : List Char}

/-- A name or an option that can stand between slashes. -/
structure IsPart (s : List Char) : Prop where
  ne_nil : s ≠ []
  no_slash : '/' ∉ s
  no_blank : ∀ c ∈ s, Chars.isBlank c = false

/-- An action that can be written: nothing in its parts is taken for a cut. -/
structure WellFormed (a : Action) : Prop where
  name : IsPart a.name.toList
  options : ∀ option ∈ a.options, IsPart option.toList
  args : Chars.trim a.args.toList = a.args.toList

/-- What stands in front of the arguments. -/
def head (a : Action) : List Char :=
  ['/'].intercalate (a.name.toList :: a.options.map String.toList)

/-! ### Actions as they are written -/

theorem toList_render (a : Action) :
    a.render.toList = a.head ++ if a.args = "" then [] else ' ' :: a.args.toList := by
  have hoptions (name : List Char) (options : List String) :
      ['/'].intercalate (name :: options.map String.toList)
        = name ++ (String.join (options.map ("/" ++ ·))).toList := by
    induction options generalizing name with
    | nil => simp
    | cons option options ih =>
        rw [List.map_cons, List.intercalate_cons_cons, ih]
        simp
  rw [head, hoptions, render]
  by_cases h : a.args = "" <;> simp [h]

theorem WellFormed.no_blank_head (h : a.WellFormed) : ∀ c ∈ a.head, Chars.isBlank c = false := by
  intro c hc
  rcases Chars.mem_intercalate hc with rfl | ⟨piece, hpiece, hc⟩
  · rfl
  · rcases List.mem_cons.mp hpiece with rfl | hpiece
    · exact h.name.no_blank c hc
    · obtain ⟨option, hoption, rfl⟩ := List.mem_map.mp hpiece
      exact (h.options option hoption).no_blank c hc

theorem WellFormed.head_ne_nil (h : a.WellFormed) : a.head ≠ [] := by
  rw [head, Ne, Chars.intercalate_eq_nil_iff '/']
  · exact List.cons_ne_nil _ _
  · refine List.forall_mem_cons.mpr ⟨h.name.ne_nil, fun piece hpiece => ?_⟩
    obtain ⟨option, hoption, rfl⟩ := List.mem_map.mp hpiece
    exact (h.options option hoption).ne_nil

/-- There are no blanks around an action that is written. -/
theorem WellFormed.trim_render (h : a.WellFormed) : Chars.trim a.render.toList = a.render.toList := by
  rw [toList_render]
  apply Chars.trim_of_ends
  · intro c hc
    rw [List.head?_append_of_ne_nil _ h.head_ne_nil] at hc
    exact h.no_blank_head c (List.mem_of_mem_head? hc)
  · intro c hc
    by_cases hargs : a.args = ""
    · rw [if_pos hargs, List.append_nil] at hc
      exact h.no_blank_head c (List.mem_of_mem_getLast? hc)
    · have hne : a.args.toList ≠ [] := mt String.toList_eq_nil_iff.mp hargs
      rw [if_neg hargs, List.append_cons, List.getLast?_append_of_ne_nil _ hne] at hc
      exact (Chars.ends_of_trim h.args).2 c hc

/-! ### Actions as they are read -/

/-- The action with what stands in front of the arguments, and with the arguments. -/
def ofHead? (front args : List Char) (byAuthor : Bool) : Option Action :=
  match Chars.splitAt '/' front with
  | [] | [] :: _ => none
  | name :: options => some ⟨String.ofList name, optionsOf options, String.ofList args, byAuthor⟩

theorem parse?_eq (text : String) (byAuthor : Bool) :
    parse? text byAuthor = match Chars.cutBy Chars.isBlank (Chars.trim text.toList) with
      | some (head, args) => ofHead? head (Chars.trim args) byAuthor
      | none => ofHead? (Chars.trim text.toList) [] byAuthor := by
  rw [parse?]
  cases Chars.cutBy Chars.isBlank (Chars.trim text.toList) <;> rfl

theorem optionsOf_map (h : ∀ option ∈ a.options, IsPart option.toList) :
    optionsOf (a.options.map String.toList) = a.options := by
  have hkept : (a.options.map String.toList).filter (!·.isEmpty)
      = a.options.map String.toList := by
    rw [List.filter_eq_self]
    intro piece hpiece
    obtain ⟨option, hoption, rfl⟩ := List.mem_map.mp hpiece
    simpa using (h option hoption).ne_nil
  rw [optionsOf, hkept, List.map_map]
  simp [Function.comp_def]

theorem WellFormed.ofHead? (h : a.WellFormed) :
    Action.ofHead? a.head a.args.toList a.byAuthor = some a := by
  have hsplit : Chars.splitAt '/' a.head = a.name.toList :: a.options.map String.toList := by
    refine Chars.splitAt_intercalate (List.cons_ne_nil _ _) ?_
    refine List.forall_mem_cons.mpr ⟨h.name.no_slash, fun piece hpiece => ?_⟩
    obtain ⟨option, hoption, rfl⟩ := List.mem_map.mp hpiece
    exact (h.options option hoption).no_slash
  obtain ⟨c, rest, hname⟩ := List.exists_cons_of_ne_nil h.name.ne_nil
  rw [Action.ofHead?, hsplit, hname]
  dsimp only
  rw [← hname, optionsOf_map h.options, String.ofList_toList, String.ofList_toList]

/-- An action that can be written is read as itself. -/
theorem parse?_render (h : a.WellFormed) : parse? a.render a.byAuthor = some a := by
  have hread := h.ofHead?
  rw [parse?_eq, h.trim_render, toList_render]
  by_cases hargs : a.args = ""
  · rw [hargs] at hread
    rw [if_pos hargs, List.append_nil, Chars.cutBy_of_forall h.no_blank_head]
    exact hread
  · rw [if_neg hargs, Chars.cutBy_append h.no_blank_head rfl]
    dsimp only
    rwa [h.args]

/-- Pieces between slashes that are not empty are parts. -/
theorem isPart_of_mem_splitAt (hfront : ∀ c ∈ front, Chars.isBlank c = false)
    (h : s ∈ Chars.splitAt '/' front) (hne : s ≠ []) : IsPart s where
  ne_nil := hne
  no_slash hc := absurd (Chars.of_mem_splitBy h hc).1 (by decide)
  no_blank c hc := hfront c (Chars.of_mem_splitBy h hc).2

theorem of_ofHead?_eq_some (hfront : ∀ c ∈ front, Chars.isBlank c = false)
    (hargs : Chars.trim args = args) (h : ofHead? front args byAuthor = some a) :
    a.WellFormed ∧ a.byAuthor = byAuthor ∧ a.args.toList = args := by
  unfold ofHead? at h
  split at h
  · exact nomatch h
  · exact nomatch h
  · rename_i name options hname hsplit
    obtain rfl := Option.some.inj h
    refine ⟨⟨?_, fun option hoption => ?_, ?_⟩, rfl, String.toList_ofList⟩
    · rw [String.toList_ofList]
      refine isPart_of_mem_splitAt hfront (hsplit ▸ List.mem_cons_self) fun hempty => ?_
      exact hname hempty
    · obtain ⟨piece, hpiece, rfl⟩ := List.mem_map.mp hoption
      obtain ⟨hmem, hne⟩ := List.mem_filter.mp hpiece
      rw [String.toList_ofList]
      exact isPart_of_mem_splitAt hfront (hsplit ▸ List.mem_cons_of_mem name hmem)
        (by simpa using hne)
    · rwa [String.toList_ofList]

/-- What is read can be written, and its arguments are from the text. -/
theorem of_parse?_eq_some (h : parse? text byAuthor = some a) :
    a.WellFormed ∧ a.byAuthor = byAuthor ∧ ∀ c ∈ a.args.toList, c ∈ text.toList := by
  rw [parse?_eq] at h
  rcases Chars.cutBy_cases Chars.isBlank (Chars.trim text.toList) with
    ⟨hblank, hcut⟩ | ⟨before, c, after, hbefore, -, htext, hcut⟩
  · rw [hcut] at h
    obtain ⟨hwell, hauthor, hargs⟩ := of_ofHead?_eq_some hblank rfl h
    exact ⟨hwell, hauthor, hargs ▸ nofun⟩
  · rw [hcut] at h
    obtain ⟨hwell, hauthor, hargs⟩ := of_ofHead?_eq_some hbefore (Chars.trim_trim after) h
    refine ⟨hwell, hauthor, fun d hd => Chars.mem_of_mem_trim ?_⟩
    rw [hargs] at hd
    rw [htext]
    exact List.mem_append_right _ (List.mem_cons_of_mem c (Chars.mem_of_mem_trim hd))

/-- Writing what has been read and reading it again changes nothing. -/
theorem parse?_bind_render (text : String) (byAuthor : Bool) :
    (parse? text byAuthor).bind (fun a => parse? a.render byAuthor) = parse? text byAuthor := by
  cases h : parse? text byAuthor with
  | none => rfl
  | some a =>
      obtain ⟨hwell, rfl, -⟩ := of_parse?_eq_some h
      exact parse?_render hwell

/-- Slashes and blanks that separate nothing are not written again. -/
example : (parse? " main//othervm/  Foo a\tb " true).map render = some "main/othervm Foo a\tb" := by
  decide +kernel

end TestSelection.Action
