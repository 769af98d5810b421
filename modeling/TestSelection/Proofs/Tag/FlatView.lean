import TestSelection.Proofs.Action
import TestSelection.Proofs.Scan.DefaultModules
import TestSelection.Proofs.Tag.Independence
import TestSelection.Proofs.Tag.Splitting

/-!
The flat view of a test, read again. The modules of a test are written with blanks between them, and
the actions one a line. No module that can be read has a blank in it, so the modules of every test
that tags declare are got back. The arguments of an action are on one line and have no blanks at
their ends, and the name of a tag has none at all, so the actions that tags of comments add are got
back too. An option with a blank in it, which no comment can give, is the only thing that would be
cut in another way.
-/

namespace TestSelection

/-! ### Modules -/

namespace ModuleSpec

variable {m : ModuleSpec}

theorem WellFormed.blank_notMem_render (h : m.WellFormed) : ' ' ∉ m.render.toList := by
  have hname {s : List Char} (hs : isQualifiedName s = true) : ' ' ∉ s :=
    notMem_of_isQualifiedName hs (by decide) (by decide)
  obtain ⟨module, package, access⟩ := m
  cases package with
  | none => exact hname h.module
  | some package =>
      rw [toList_render, List.mem_append, List.mem_cons, List.mem_append]
      rintro (hmodule | hslash | hpackage | haccess)
      · exact hname h.module hmodule
      · exact absurd hslash (by decide)
      · exact hname (h.package package rfl) hpackage
      · cases access with
        | nil => exact nomatch haccess
        | cons a access =>
            rcases List.mem_cons.mp haccess with hcolon | haccess
            · exact absurd hcolon (by decide)
            · rcases Chars.mem_intercalate haccess with hcomma | ⟨piece, hpiece, hmem⟩
              · exact absurd hcomma (by decide)
              · obtain ⟨b, -, rfl⟩ := List.mem_map.mp hpiece
                cases b <;> exact absurd hmem (by decide)

end ModuleSpec

namespace Description

/-- The view of the modules, cut at its blanks, is read as the modules. -/
def ModulesReadBack (test : Description) : Prop :=
  ((test.parameter? "modules").toList.flatMap (Text.splitAt ' ')).mapM ModuleSpec.parse
    = .ok test.modules

/-- Exactly the modules that can be written are got back. -/
theorem modulesReadBack_iff (test : Description) :
    test.ModulesReadBack ↔ ∀ m ∈ test.modules, m.WellFormed := by
  constructor
  · intro h m hm
    obtain ⟨token, -, hparse⟩ := exists_mem_of_forall₂ (mapM_eq_ok.mp h).flip hm
    exact (ModuleSpec.parse_eq_ok_iff.mp hparse).1
  · intro h
    have hview : test.parameter? "modules"
        = joined? " " (test.modules.map ModuleSpec.render) := rfl
    have hsplit : (test.parameter? "modules").toList.flatMap (Text.splitAt ' ')
        = test.modules.map ModuleSpec.render := by
      by_cases hempty : test.modules = []
      · rw [hview, hempty]
        rfl
      · rw [hview, joined?, if_neg (by simpa using hempty), Option.toList_some,
          List.flatMap_singleton]
        refine Text.splitAt_intercalate rfl (by simpa using hempty) fun piece hpiece => ?_
        obtain ⟨m, hm, rfl⟩ := List.mem_map.mp hpiece
        exact (h m hm).blank_notMem_render
    rw [ModulesReadBack, hsplit]
    exact mapM_map_of_forall fun m hm => ModuleSpec.parse_eq_ok_iff.mpr ⟨h m hm, rfl⟩

end Description

namespace Declaration

theorem wellFormed_of_moduleOfToken {token : String} {m : ModuleSpec}
    (h : moduleOfToken token = .ok m) : m.WellFormed := by
  unfold moduleOfToken at h
  split at h
  · rename_i found hfound
    obtain rfl := Except.ok.inj h
    exact (ModuleSpec.parse_eq_ok_iff.mp hfound).1
  · exact nomatch h

/-- A module of a declaration has been there before a tag, or it has been read from the tag. -/
theorem of_mem_addModules {modules : Option (List ModuleSpec)} {after : List ModuleSpec}
    {m : ModuleSpec} {e : TagEntry} (h : addModules modules e = some after) (hm : m ∈ after) :
    (∃ old, modules = some old ∧ m ∈ old) ∨ m.WellFormed := by
  unfold addModules at h
  split at h
  · rename_i added hadded
    obtain rfl := Option.some.inj h
    rcases List.mem_append.mp hm with hm | hm
    · cases modules with
      | none => exact nomatch hm
      | some old => exact Or.inl ⟨old, rfl, hm⟩
    · obtain ⟨token, -, hparse⟩ := exists_mem_of_forall₂ (mapM_eq_ok.mp hadded).flip hm
      exact Or.inr (wellFormed_of_moduleOfToken hparse)
  · exact Or.inl ⟨after, h, hm⟩

/-- All modules of a declaration can be written. -/
theorem wellFormed_of_mem_modules (rules : TagRules) (entries : List TagEntry) :
    ∀ modules, (ofEntries rules entries).modules = some modules → ∀ m ∈ modules, m.WellFormed := by
  refine List.foldlRecOn (motive := fun d : Declaration =>
    ∀ modules, d.modules = some modules → ∀ m ∈ modules, m.WellFormed) entries _ nofun ?_
  intro d hd e _ modules hmodules m hm
  rw [apply_eq] at hmodules
  dsimp only at hmodules
  split_ifs at hmodules
  · rcases of_mem_addModules hmodules hm with ⟨old, hold, hm⟩ | hwell
    · exact hd old hold m hm
    · exact hwell
  · exact hd modules hmodules m hm

/-- Texts are read as the modules that are written as them. A test whose modules can be written has
them got back from its view, and that is so for each test that tags declare. -/
theorem modulesReadBack_describe :
    (∀ token m, ModuleSpec.parse token = .ok m ↔ m.WellFormed ∧ m.render = token) ∧
      (∀ test : Description, test.ModulesReadBack ↔ ∀ m ∈ test.modules, m.WellFormed) ∧
      ∀ rules entries file relativePath line id dir,
        ((ofEntries rules entries).describe file relativePath line id dir).ModulesReadBack := by
  refine ⟨fun token m => ModuleSpec.parse_eq_ok_iff, Description.modulesReadBack_iff, ?_⟩
  intro rules entries file relativePath line id dir
  rw [Description.modulesReadBack_iff, modules_describe]
  intro m hm
  cases hmodules : (ofEntries rules entries).modules with
  | some modules =>
      rw [hmodules, Option.getD_some] at hm
      exact wellFormed_of_mem_modules rules entries modules hmodules m hm
  | none =>
      rw [hmodules, Option.getD_none] at hm
      obtain ⟨token, -, hparse⟩ := List.mem_filterMap.mp hm
      cases hresult : ModuleSpec.parse token with
      | error problem => exact nomatch hresult ▸ hparse
      | ok found =>
          rw [hresult] at hparse
          obtain rfl := Option.some.inj hparse
          exact (ModuleSpec.parse_eq_ok_iff.mp hresult).1

end Declaration

/-! ### Actions -/

namespace Action

variable {a : Action}

theorem WellFormed.isLine_render (h : a.WellFormed) (hargs : '\n' ∉ a.args.toList) :
    Chars.IsLine a.render.toList := by
  refine Chars.isLine_of_trim ?_ h.trim_render
  rw [toList_render, List.mem_append]
  rintro (hhead | hrest)
  · exact absurd (h.no_blank_head _ hhead) (by decide)
  · split_ifs at hrest
    · exact nomatch hrest
    · rcases List.mem_cons.mp hrest with hblank | hmem
      · exact absurd hblank (by decide)
      · exact hargs hmem

theorem WellFormed.render_ne_empty (h : a.WellFormed) : a.render ≠ "" := by
  intro hempty
  have hhead := (toList_render a).symm.trans (congrArg String.toList hempty)
  exact h.head_ne_nil (List.append_eq_nil_iff.mp hhead).1

/-- An action that a tag adds. Its options are cut at slashes, but blanks may be in them. -/
structure FromTag (a : Action) : Prop where
  name : IsPart a.name.toList
  options : ∀ option ∈ a.options, option.toList ≠ [] ∧ '/' ∉ option.toList
  args : Chars.trim a.args.toList = a.args.toList
  no_feed : '\n' ∉ a.args.toList
  byAuthor : a.byAuthor = true

theorem FromTag.wellFormed (h : a.FromTag)
    (hblank : ∀ option ∈ a.options, ∀ c ∈ option.toList, Chars.isBlank c = false) :
    a.WellFormed where
  name := h.name
  options option hoption :=
    ⟨(h.options option hoption).1, (h.options option hoption).2, hblank option hoption⟩
  args := h.args

end Action

theorem TagEntry.feed_notMem_flat (e : TagEntry) : '\n' ∉ e.flat.toList := by
  rw [flat, Text.toList_fold]
  intro hmem
  have hspace := (Chars.evenlySpaced_squeeze _).1 _ hmem (by decide)
  exact absurd hspace (by decide)

theorem TagEntry.trim_flat (e : TagEntry) : Chars.trim e.flat.toList = e.flat.toList := by
  rw [flat, Text.toList_fold, Chars.trim_squeeze_trim]

/-- Options are cut from the name at its slashes. -/
theorem TagEntry.of_mem_options {e : TagEntry} {option : String} (h : option ∈ e.options) :
    option.toList ≠ [] ∧ '/' ∉ option.toList ∧ ∀ c ∈ option.toList, c ∈ e.name.toList := by
  obtain ⟨piece, hpiece, rfl⟩ := List.mem_map.mp h
  obtain ⟨hdrop, hne⟩ := List.mem_filter.mp hpiece
  have hmem := List.mem_of_mem_drop hdrop
  rw [String.toList_ofList]
  refine ⟨by simpa using hne, fun hslash => ?_, fun c hc => (Chars.of_mem_splitBy hmem hc).2⟩
  exact absurd (Chars.of_mem_splitBy hmem hslash).1 (by decide)

namespace Description

/-- The view of the actions is read line by line as the actions, all by the author of the test. -/
def RunReadsBack (test : Description) : Prop :=
  ∃ text, test.parameter? "run" = some text ∧
    (Text.lines text).mapM (Action.parse? · true) = some test.run

/-- Actions from tags are got back exactly if there are no blanks in their options. -/
theorem runReadsBack_iff {test : Description} (hne : test.run ≠ [])
    (h : ∀ a ∈ test.run, a.FromTag) :
    test.RunReadsBack ↔
      ∀ a ∈ test.run, ∀ option ∈ a.options, ∀ c ∈ option.toList, Chars.isBlank c = false := by
  constructor
  · rintro ⟨text, -, hread⟩ a ha option hoption
    obtain ⟨line, -, hparse⟩ := exists_mem_of_forall₂ (forall₂_of_mapM_eq_some hread).flip ha
    obtain ⟨hwell, -, -⟩ := Action.of_parse?_eq_some hparse
    exact (hwell.options option hoption).no_blank
  · intro hblank
    have hwell : ∀ a ∈ test.run, a.WellFormed := fun a ha => (h a ha).wellFormed (hblank a ha)
    have hview : test.parameter? "run" = joined? "\n" (test.run.map Action.render) := rfl
    rw [joined?, if_neg (by simpa using hne)] at hview
    refine ⟨_, hview, ?_⟩
    rw [Text.lines_intercalate]
    · refine mapM_map_of_forall fun a ha => ?_
      have hread := Action.parse?_render (hwell a ha)
      rwa [(h a ha).byAuthor] at hread
    · intro piece hpiece
      obtain ⟨a, ha, rfl⟩ := List.mem_map.mp hpiece
      exact (hwell a ha).isLine_render (h a ha).no_feed
    · intro piece hpiece
      obtain ⟨a, ha, rfl⟩ := List.mem_map.mp hpiece
      exact (hwell a ha).render_ne_empty

end Description

namespace Declaration

variable {a : Action} {e : TagEntry}

theorem isPart_of_isAction (h : isAction e = true) : Action.IsPart e.baseName.toList := by
  have hparts : ∀ name ∈ actionTags, name.toList ≠ [] ∧ '/' ∉ name.toList ∧
      name.toList.any Chars.isBlank = false := by
    decide
  obtain ⟨hne, hslash, hblank⟩ := hparts e.baseName (List.contains_iff_mem.mp h)
  exact ⟨hne, hslash, by simpa using hblank⟩

/-- The action of a tag has its options from the name of the tag, or has been read. -/
theorem fromTag_of_actionOf (haction : isAction e = true) (h : actionOf e = .ok a) :
    a.FromTag ∧ (a.options = e.options ∨ a.WellFormed) := by
  unfold actionOf at h
  dsimp only at h
  split_ifs at h with hempty hrun
  · split at h
    · rename_i found hread
      obtain rfl := Except.ok.inj h
      obtain ⟨hwell, hauthor, hargs⟩ := Action.of_parse?_eq_some hread
      refine ⟨⟨hwell.name, fun option hoption => ?_, hwell.args, ?_, hauthor⟩, Or.inr hwell⟩
      · have hpart := hwell.options option hoption
        exact ⟨hpart.ne_nil, hpart.no_slash⟩
      · exact fun hfeed => e.feed_notMem_flat (hargs _ hfeed)
    · exact nomatch h
  · obtain rfl := Except.ok.inj h
    refine ⟨⟨isPart_of_isAction haction, fun option hoption => ?_, e.trim_flat,
      e.feed_notMem_flat, rfl⟩, Or.inl rfl⟩
    obtain ⟨hne, hslash, -⟩ := TagEntry.of_mem_options hoption
    exact ⟨hne, hslash⟩

theorem mem_newActions (h : a ∈ newActions e) :
    a.FromTag ∧ (a.options = e.options ∨ a.WellFormed) := by
  unfold newActions at h
  split at h
  · rename_i haction
    cases hresult : actionOf e with
    | error error => exact nomatch hresult ▸ h
    | ok found =>
        rw [hresult] at h
        obtain rfl := List.mem_singleton.mp h
        exact fromTag_of_actionOf haction hresult
  · exact nomatch h

/-- A test that tags of comments give actions to has them got back from its view, in order. Tags that
are made up have them got back exactly if no option has a blank in it. An action that has been read
is written as a text that is read as it again. -/
theorem runReadsBack_describe :
    (∀ rules entries, (ofEntries rules entries).actions ≠ [] →
      ∀ file relativePath line id dir,
        let test := (ofEntries rules entries).describe file relativePath line id dir
        test.run = (ofEntries rules entries).actions ∧
          ((∀ e ∈ entries, ∃ comment, e ∈ TagEntry.ofComment comment) → test.RunReadsBack) ∧
          (test.RunReadsBack ↔ ∀ a ∈ test.run, ∀ option ∈ a.options, ∀ c ∈ option.toList,
            Chars.isBlank c = false)) ∧
      ∀ text byAuthor, (Action.parse? text byAuthor).bind (fun a => Action.parse? a.render byAuthor)
        = Action.parse? text byAuthor := by
  refine ⟨fun rules entries hne file relativePath line id dir => ?_, Action.parse?_bind_render⟩
  intro test
  have hrun : test.run = (ofEntries rules entries).actions := (run_describe _ ..).trans (if_neg hne)
  have hactions : ∀ a ∈ test.run, ∃ e ∈ entries, a ∈ newActions e := by
    intro a ha
    rwa [hrun, actions_ofEntries, List.mem_flatMap] at ha
  have hiff := Description.runReadsBack_iff (hrun ▸ hne) fun a ha => by
    obtain ⟨e, -, he⟩ := hactions a ha
    exact (mem_newActions he).1
  refine ⟨hrun, fun hcomments => hiff.mpr fun a ha option hoption c hc => ?_, hiff⟩
  obtain ⟨e, he, hnew⟩ := hactions a ha
  rcases (mem_newActions hnew).2 with hoptions | hwell
  · obtain ⟨comment, hcomment⟩ := hcomments e he
    obtain ⟨-, -, hname⟩ := TagEntry.of_mem_options (hoptions ▸ hoption)
    exact (TagEntry.isTagName_of_mem_ofComment hcomment).no_blank c (hname c hc)
  · exact (hwell.options option hoption).no_blank c hc

/-- Actions of three kinds: one that is read, one with an option at its name, one without a value. -/
theorem runReadsBack_describe_three :
    let entries := TagEntry.ofComment
      "@test\n@run main/othervm//timeout=60 Foo  a\n  b\n@compile/fail T.java\n@ignore"
    let d := ofEntries .default entries
    let test := d.describe ⟨"suite/T.java"⟩ "T.java" 1 none (.root SuiteConfig.default)
    d.actions ≠ [] ∧ test.RunReadsBack ∧
      test.parameter? "run"
        = some "main/othervm/timeout=60 Foo a b\ncompile/fail T.java\nignore" := by
  intro entries d test
  have hactions : d.actions ≠ [] := by decide +kernel
  obtain ⟨-, hcomments, -⟩ := runReadsBack_describe.1 .default entries hactions ⟨"suite/T.java"⟩
    "T.java" 1 none (.root SuiteConfig.default)
  exact ⟨hactions, hcomments fun e he => ⟨_, he⟩, by decide +kernel⟩

end Declaration

end TestSelection
