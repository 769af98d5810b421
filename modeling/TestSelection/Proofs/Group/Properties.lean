import Mathlib.Data.List.Induction
import Mathlib.Data.List.Nodup
import TestSelection.Group.Properties
import TestSelection.Proofs.Lines
import TestSelection.Proofs.Lists

/-!
What a properties file says. Its lines are laid out as lines that say nothing and properties, each
on a line that says something and those in which it goes on. A property can be broken into one line
more wherever its text does not end in a backslash and does not go on with a blank: the blanks in
front of a line never count, and a line in which a property goes on is never read as a comment. Of
the properties with one key the first gives the place and the last one all else.
-/

namespace TestSelection

namespace Property

open Chars

variable {raw front back blanks : List Char} {opened : Option (List Char)} {number : Nat}
  {rest : List (List Char)}

/-! ### Lines -/

/-- Whether a line starts a property if none goes on in it. -/
def startsProperty (raw : List Char) : Bool := !saysNothing (trimStart raw)

/-- Whether the property of a line goes on in the next one. -/
def goesOn (raw : List Char) : Bool := continues (trimStart raw)

/-- What a line adds to its property. -/
def piece (raw : List Char) : List Char :=
  if goesOn raw then (trimStart raw).dropLast else trimStart raw

/-- Lines from the given number on are laid out as lines that say nothing and properties, each with
the number of its first line. -/
inductive Laid : Nat → List (List Char) → List (Nat × List Char) → Prop
  | nil (number : Nat) : Laid number [] []
  | skip {number : Nat} {raw : List Char} {rest : List (List Char)}
      {wholes : List (Nat × List Char)} (h : startsProperty raw = false)
      (hrest : Laid (number + 1) rest wholes) : Laid number (raw :: rest) wholes
  /-- A property goes on in the line behind each of its lines but the last, which may do so only at
  the end of all lines. -/
  | property {number : Nat} {front : List (List Char)} {last : List Char} {rest : List (List Char)}
      {wholes : List (Nat × List Char)}
      (hfirst : ∃ first ∈ (front ++ [last]).head?, startsProperty first = true)
      (hfront : ∀ raw ∈ front, goesOn raw = true) (hlast : rest = [] ∨ goesOn last = false)
      (hrest : Laid (number + (front.length + 1)) rest wholes) :
      Laid number (front ++ last :: rest)
        ((number, front.flatMap piece ++ piece last) :: wholes)

/-- Lines of a property that goes on behind them. -/
structure IsOpen (own : List (List Char)) : Prop where
  first : ∃ first ∈ own.head?, startsProperty first = true
  goesOn : ∀ raw ∈ own, goesOn raw = true

theorem isOpen_singleton (hstarts : startsProperty raw = true) (hgoesOn : goesOn raw = true) :
    IsOpen [raw] :=
  ⟨⟨raw, rfl, hstarts⟩, List.forall_mem_singleton.mpr hgoesOn⟩

theorem IsOpen.first_append {own : List (List Char)} (h : IsOpen own) (raw : List Char) :
    ∃ first ∈ (own ++ [raw]).head?, startsProperty first = true := by
  obtain ⟨first, hfirst, hstarts⟩ := h.first
  exact ⟨first, List.mem_head?_append_of_mem_head? hfirst, hstarts⟩

theorem IsOpen.append_singleton {own : List (List Char)} (h : IsOpen own)
    (hgoesOn : Property.goesOn raw = true) : IsOpen (own ++ [raw]) :=
  ⟨h.first_append raw,
    List.forall_mem_append.mpr ⟨h.goesOn, List.forall_mem_singleton.mpr hgoesOn⟩⟩

theorem whole_cons (line : List Char) (pieces : List (List Char)) :
    whole (line :: pieces) = whole pieces ++ line := by
  simp [whole]

theorem joinLines_none_cons (number : Nat) (raw : List Char) (rest : List (List Char)) :
    joinLines number none (raw :: rest) =
      if startsProperty raw then
        if goesOn raw then joinLines (number + 1) (some (number, [piece raw])) rest
        else (number, piece raw) :: joinLines (number + 1) none rest
      else joinLines (number + 1) none rest := by
  rw [joinLines]
  simp only [startsProperty, goesOn, piece]
  split_ifs <;> simp_all

theorem joinLines_some_cons (number start : Nat) (before : List (List Char)) (raw : List Char)
    (rest : List (List Char)) :
    joinLines number (some (start, before)) (raw :: rest) =
      if goesOn raw then joinLines (number + 1) (some (start, piece raw :: before)) rest
      else (start, whole before ++ piece raw) :: joinLines (number + 1) none rest := by
  rw [joinLines]
  simp only [goesOn, piece]
  split_ifs <;> simp_all [whole_cons]

/-- The lines are laid out, also together with those of a property that goes on in them. -/
theorem laid_joinLines_and (lines : List (List Char)) (number : Nat) :
    Laid number lines (joinLines number none lines) ∧
      ∀ start own before, IsOpen own → start + own.length = number →
        whole before = own.flatMap piece →
          Laid start (own ++ lines) (joinLines number (some (start, before)) lines) := by
  induction lines generalizing number with
  | nil =>
      refine ⟨.nil number, fun start own before hown _ hbefore => ?_⟩
      have hjoined : joinLines number (some (start, before)) [] = [(start, whole before)] := rfl
      obtain ⟨first, hfirst, -⟩ := hown.first
      obtain ⟨front, last, rfl⟩ := (List.eq_nil_or_concat' own).resolve_left
        (List.ne_nil_of_mem (List.mem_of_head? hfirst))
      rw [hjoined, hbefore, List.flatMap_append, List.flatMap_singleton, List.append_nil]
      exact .property hown.first (fun raw hraw => hown.goesOn raw (List.mem_append_left _ hraw))
        (.inl rfl) (.nil _)
  | cons raw rest ih =>
      obtain ⟨hclosed, hopened⟩ := ih (number + 1)
      constructor
      · rw [joinLines_none_cons]
        split_ifs with hstarts hgoesOn
        · exact hopened number [raw] [piece raw] (isOpen_singleton hstarts hgoesOn) rfl
            (by simp [whole])
        · have hlaid : Laid number ([] ++ raw :: rest)
              ((number, [].flatMap piece ++ piece raw) :: joinLines (number + 1) none rest) :=
            .property ⟨raw, rfl, hstarts⟩ (List.forall_mem_nil _)
              (.inr (Bool.of_not_eq_true hgoesOn)) hclosed
          exact hlaid
        · exact .skip (Bool.of_not_eq_true hstarts) hclosed
      · intro start own before hown hnumber hbefore
        rw [joinLines_some_cons]
        split_ifs with hgoesOn
        · have hlaid := hopened start (own ++ [raw]) (piece raw :: before)
            (hown.append_singleton hgoesOn) (by simp; omega)
            (by simp [whole_cons, hbefore])
          rwa [List.append_assoc] at hlaid
        · rw [hbefore]
          refine .property (hown.first_append raw) hown.goesOn
            (.inr (Bool.of_not_eq_true hgoesOn)) ?_
          rw [← Nat.add_assoc, hnumber]
          exact hclosed

/-! ### Texts without their numbers -/

/-- Whether a property goes on behind lines; `opened` if one goes on in them. -/
def goesOnBehind (opened : Bool) : List (List Char) → Bool
  | [] => opened
  | raw :: rest => goesOnBehind ((opened || startsProperty raw) && goesOn raw) rest

/-- The texts of the properties of lines; `opened` is the text of the one that goes on in them. -/
def texts (opened : Option (List Char)) : List (List Char) → List (List Char)
  | [] => opened.toList
  | raw :: rest =>
    if opened = none ∧ startsProperty raw = false then texts none rest
    else if goesOn raw then texts (some (opened.getD [] ++ piece raw)) rest
    else (opened.getD [] ++ piece raw) :: texts none rest

theorem map_snd_joinLines (lines : List (List Char)) (number : Nat)
    (pending : Option (Nat × List (List Char))) :
    (joinLines number pending lines).map (·.2) = texts (pending.map fun p => whole p.2) lines := by
  induction lines generalizing number pending with
  | nil => cases pending <;> rfl
  | cons raw rest ih =>
      cases pending with
      | none =>
          rw [joinLines_none_cons, texts]
          cases hstarts : startsProperty raw <;> cases hgoesOn : goesOn raw <;>
            simp [ih, whole]
      | some p =>
          obtain ⟨start, before⟩ := p
          rw [joinLines_some_cons, texts]
          cases hgoesOn : goesOn raw <;> simp [ih, whole_cons]

theorem exists_texts_append (lines : List (List Char)) (opened : Option (List Char)) :
    ∃ done after, after.isSome = goesOnBehind opened.isSome lines ∧
      ∀ rest, texts opened (lines ++ rest) = done ++ texts after rest := by
  induction lines generalizing opened with
  | nil => exact ⟨[], opened, rfl, fun _ => rfl⟩
  | cons raw lines ih =>
      rw [goesOnBehind]
      simp only [List.cons_append, texts]
      split_ifs with hnone hgoesOn
      · obtain ⟨done, after, hafter, htexts⟩ := ih none
        refine ⟨done, after, ?_, htexts⟩
        rw [hafter, hnone.1, hnone.2]
        rfl
      · obtain ⟨done, after, hafter, htexts⟩ := ih (some (opened.getD [] ++ piece raw))
        have hopened : (opened.isSome || startsProperty raw) = true := by
          cases opened <;> simp_all
        refine ⟨done, after, ?_, htexts⟩
        rw [hafter, hopened, hgoesOn]
        rfl
      · obtain ⟨done, after, hafter, htexts⟩ := ih none
        refine ⟨(opened.getD [] ++ piece raw) :: done, after, ?_, fun rest => ?_⟩
        · rw [hafter]
          simp [hgoesOn]
        · rw [htexts, List.cons_append]

/-! ### A property broken into one line more -/

theorem continues_append (hfront : front.getLast? ≠ some '\\') (back : List Char) :
    continues (front ++ back) = continues back := by
  have hnone : front.reverse.takeWhile (· == '\\') = [] := by
    rw [← List.head?_reverse] at hfront
    cases hreverse : front.reverse with
    | nil => rfl
    | cons c before => exact List.takeWhile_cons_of_neg (by simpa [hreverse] using hfront)
  rw [continues, continues, List.reverse_append, List.takeWhile_append, hnone]
  split
  · rename_i hall
    rw [List.append_nil, hall]
  · rfl

theorem getLast?_trimStart_ne {c : Char} (h : front.getLast? ≠ some c) :
    (trimStart front).getLast? ≠ some c := by
  intro hlast
  obtain ⟨before, hbefore⟩ := List.dropWhile_suffix (l := front) isBlank
  rw [← hbefore] at h
  exact h (List.mem_getLast?_append_of_mem_getLast? hlast)

theorem goesOn_append (hfront : front.getLast? ≠ some '\\')
    (hback : ∀ c ∈ back.head?, isBlank c = false) : goesOn (front ++ back) = goesOn back := by
  rw [goesOn, goesOn, trimStart_append hback, continues_append (getLast?_trimStart_ne hfront),
    trimStart, dropWhile_of_head? hback]

theorem piece_append (hfront : front.getLast? ≠ some '\\')
    (hback : ∀ c ∈ back.head?, isBlank c = false) :
    piece (front ++ back) = trimStart front ++ piece back := by
  have hkeep : trimStart back = back := dropWhile_of_head? hback
  rw [piece, piece, goesOn_append hfront hback, trimStart_append hback, hkeep]
  split_ifs with hgoesOn
  · have hne : back ≠ [] := by
      rintro rfl
      exact absurd hgoesOn (by decide)
    exact List.dropLast_append_of_ne_nil hne
  · rfl

theorem startsProperty_append (h : startsProperty front = true)
    (hback : ∀ c ∈ back.head?, isBlank c = false) : startsProperty (front ++ back) = true := by
  rw [startsProperty] at h ⊢
  rw [trimStart_append hback]
  cases hfront : trimStart front with
  | nil => simp [hfront, saysNothing] at h
  | cons c front => rwa [hfront] at h

/-- A line of a property broken into two. -/
theorem texts_broken (hopened : opened ≠ none ∨ startsProperty front = true)
    (hfront : front.getLast? ≠ some '\\') (hback : ∀ c ∈ back.head?, isBlank c = false)
    (hblanks : ∀ c ∈ blanks, isBlank c = true) (rest : List (List Char)) :
    texts opened ((front ++ ['\\']) :: (blanks ++ back) :: rest)
      = texts opened ((front ++ back) :: rest) := by
  have hsign : ∀ c ∈ ['\\'].head?, isBlank c = false := by
    rintro _ ⟨⟩
    decide
  have hblank : blanks.getLast? ≠ some '\\' := by
    intro hlast
    exact absurd (hblanks _ (List.mem_of_getLast? hlast)) (by decide)
  have hnothing : trimStart blanks = [] := List.dropWhile_eq_nil_iff.mpr hblanks
  have hstays {t : List Char} (ht : ∀ c ∈ t.head?, isBlank c = false) :
      ¬ (opened = none ∧ startsProperty (front ++ t) = false) := by
    rintro ⟨hnone, hstarts⟩
    rw [startsProperty_append (hopened.resolve_left (not_not_intro hnone)) ht] at hstarts
    exact nomatch hstarts
  have hgoesOn : goesOn ['\\'] = true := by decide
  have hpiece : piece ['\\'] = [] := by decide
  rw [texts, if_neg (hstays hsign), goesOn_append hfront hsign, if_pos hgoesOn,
    piece_append hfront hsign, hpiece, texts, if_neg (by simp), goesOn_append hblank hback,
    piece_append hblank hback, hnothing, texts, if_neg (hstays hback),
    goesOn_append hfront hback, piece_append hfront hback]
  simp only [Option.getD_some, List.append_nil, List.nil_append, List.append_assoc]

theorem texts_singleton_nil (opened : Option (List Char)) :
    texts opened [[]] = texts opened [] := by
  cases opened with
  | none => decide
  | some before => exact congrArg (· :: []) (List.append_nil before)

/-- One line more without anything in it makes no difference at the end of a text. -/
theorem texts_lines_of_notMem {s : List Char} (h : '\n' ∉ s) (opened : Option (List Char)) :
    texts opened (lines s) = texts opened [s] := by
  rw [lines_of_notMem h]
  split_ifs with hnil
  · rw [hnil, texts_singleton_nil]
  · rfl

theorem texts_cons_congr {before after : List (List Char)}
    (h : ∀ opened, texts opened before = texts opened after) (opened : Option (List Char)) :
    texts opened (raw :: before) = texts opened (raw :: after) := by
  simp only [texts, h]

/-- The lines of a text from a place inside a property on. -/
theorem texts_lines_broken {line after : List Char}
    (hopened : opened ≠ none ∨ startsProperty line = true) (hline : '\n' ∉ line)
    (hlast : line.getLast? ≠ some '\\') (hafter : ∀ c ∈ after.head?, isBlank c = false)
    (hblanks : ∀ c ∈ blanks, isBlank c = true ∧ c ≠ '\n') :
    texts opened (lines (line ++ '\\' :: '\n' :: (blanks ++ after)))
      = texts opened (lines (line ++ after)) := by
  have hblank : ∀ c ∈ blanks, isBlank c = true := fun c hc => (hblanks c hc).1
  have hfeed : '\n' ∉ blanks := fun hmem => (hblanks _ hmem).2 rfl
  have hbroken : lines (line ++ '\\' :: '\n' :: (blanks ++ after))
      = (line ++ ['\\']) :: lines (blanks ++ after) := by
    rw [List.append_cons, lines_line (by simpa using hline), dropReturn_of_getLast? (by simp)]
  obtain ⟨back, ending, next, rfl, hback, hends⟩ := exists_endsLine after
  have hfeeds {t : List Char} (ht : '\n' ∉ t) : '\n' ∉ t ++ back :=
    fun hmem => (List.mem_append.mp hmem).elim ht hback
  rw [hbroken]
  cases hends with
  | feed =>
      have hne : back ≠ [] := by
        rintro rfl
        exact absurd (hafter '\n' rfl) (by decide)
      have hhead : ∀ c ∈ (dropReturn back).head?, isBlank c = false := fun c hc =>
        hafter c (List.mem_head?_append_of_mem_head? (head?_dropReturn hc))
      rw [List.singleton_append, ← List.append_assoc, ← List.append_assoc,
        lines_line (hfeeds hfeed), lines_line (hfeeds hline), dropReturn_append hne,
        dropReturn_append hne]
      exact texts_broken hopened hlast hhead hblank _
  | stop =>
      simp only [List.append_nil] at hafter ⊢
      rw [texts_lines_of_notMem (hfeeds hline),
        texts_cons_congr (texts_lines_of_notMem (hfeeds hfeed))]
      exact texts_broken hopened hlast hafter hblank []

/-- A place inside a property: an earlier line goes on in its line, or the line has started one. -/
def InProperty (before : List Char) : Prop :=
  ∃ earlier line, before = earlier ++ line ∧ StartsLine earlier ∧ '\n' ∉ line ∧
    (goesOnBehind false (lines earlier) = true ∨ startsProperty line = true)

theorem texts_lines_insert {before after : List Char} (h : InProperty before)
    (hbefore : before.getLast? ≠ some '\\') (hafter : ∀ c ∈ after.head?, isBlank c = false)
    (hblanks : ∀ c ∈ blanks, isBlank c = true ∧ c ≠ '\n') :
    texts none (lines (before ++ '\\' :: '\n' :: (blanks ++ after)))
      = texts none (lines (before ++ after)) := by
  obtain ⟨earlier, line, rfl, hearlier, hline, hopened⟩ := h
  obtain ⟨done, opened, hsome, htexts⟩ := exists_texts_append (lines earlier) none
  have hlast : line.getLast? ≠ some '\\' :=
    fun hlast => hbefore (List.mem_getLast?_append_of_mem_getLast? hlast)
  have hopen : opened ≠ none ∨ startsProperty line = true := by
    refine hopened.imp_left fun hgoes hnone => ?_
    rw [Option.isSome_none, hgoes, hnone] at hsome
    exact nomatch hsome
  rw [List.append_assoc, List.append_assoc, lines_append (.inr hearlier),
    lines_append (.inr hearlier), htexts, htexts,
    texts_lines_broken hopen hline hlast hafter hblanks]

/-! ### Keys and values -/

def entry (p : Property) : String × String := (p.key, p.value)

/-- What a whole line says, with the number that it starts at. -/
def ofWhole (w : Nat × List Char) : Property :=
  ⟨String.ofList (split w.2).1, String.ofList (split w.2).2, w.1⟩

/-- All that whole lines say, of properties with one key the last one at the place of the first. -/
def merge (said : List Property) : List Property := said.foldl (fun ps p => set p ps) []

theorem ofText_eq (text : String) :
    ofText text = merge ((joinLines 1 none (lines text.toList)).map ofWhole) := by
  rw [ofText, merge, List.foldl_map]
  rfl

theorem merge_append_singleton (said : List Property) (p : Property) :
    merge (said ++ [p]) = set p (merge said) := by
  rw [merge, List.foldl_append]
  rfl

theorem map_entry_set {p q : Property} {ps qs : List Property} (h : p.entry = q.entry)
    (hs : ps.map entry = qs.map entry) : (set p ps).map entry = (set q qs).map entry := by
  obtain ⟨hkey, -⟩ := Prod.mk.inj h
  induction ps generalizing qs with
  | nil =>
      obtain rfl := List.map_eq_nil_iff.mp hs.symm
      exact congrArg (· :: []) h
  | cons first ps ih =>
      cases qs with
      | nil => exact nomatch hs
      | cons first' qs =>
          obtain ⟨hfirst, hrest⟩ := List.cons.inj hs
          obtain ⟨hfirstKey, -⟩ := Prod.mk.inj hfirst
          rw [set, set, hfirstKey, hkey]
          split_ifs
          · rw [List.map_cons, List.map_cons, h, hrest]
          · rw [List.map_cons, List.map_cons, hfirst, ih hrest]

/-- The lines on which properties are said do not count for keys and values. -/
theorem map_entry_merge {said said' : List Property} (h : said.map entry = said'.map entry) :
    (merge said).map entry = (merge said').map entry := by
  induction said using List.reverseRecOn generalizing said' with
  | nil =>
      obtain rfl := List.map_eq_nil_iff.mp h.symm
      rfl
  | append_singleton said p ih =>
      rw [List.map_append] at h
      obtain ⟨front, last, rfl, hfront, hlast⟩ := List.map_eq_append_iff.mp h.symm
      obtain ⟨q, rfl, hq⟩ := List.map_eq_singleton_iff.mp hlast
      rw [merge_append_singleton, merge_append_singleton]
      exact map_entry_set hq.symm (ih hfront.symm)

theorem map_entry_ofText {s t : List Char}
    (h : texts none (lines s) = texts none (lines t)) :
    (ofText (String.ofList s)).map entry = (ofText (String.ofList t)).map entry := by
  have hwhole (s : List Char) : ((joinLines 1 none (lines s)).map ofWhole).map entry
      = (texts none (lines s)).map fun line =>
          (String.ofList (split line).1, String.ofList (split line).2) := by
    have htexts := map_snd_joinLines (lines s) 1 none
    rw [Option.map_none] at htexts
    rw [← htexts, List.map_map, List.map_map]
    rfl
  rw [ofText_eq, ofText_eq, String.toList_ofList, String.toList_ofList]
  exact map_entry_merge (by rw [hwhole, hwhole, h])

/-! ### Keys -/

theorem map_key_set (p : Property) (ps : List Property) :
    (set p ps).map (·.key)
      = if p.key ∈ ps.map (·.key) then ps.map (·.key) else ps.map (·.key) ++ [p.key] := by
  induction ps with
  | nil => rfl
  | cons q ps ih =>
      rw [set]
      by_cases hq : q.key = p.key
      · simp [hq]
      · rw [if_neg hq, List.map_cons, ih, List.map_cons]
        by_cases hmem : p.key ∈ ps.map (·.key)
        · rw [if_pos hmem, if_pos (List.mem_cons_of_mem _ hmem)]
        · rw [if_neg hmem, if_neg fun h => (List.mem_cons.mp h).elim (Ne.symm hq) hmem,
            List.cons_append]

theorem nodup_map_key_merge (said : List Property) : ((merge said).map (·.key)).Nodup := by
  induction said using List.reverseRecOn with
  | nil => exact List.nodup_nil
  | append_singleton said p ih =>
      rw [merge_append_singleton, map_key_set]
      split_ifs with hmem
      · exact ih
      · rw [← List.concat_eq_append]
        exact List.Nodup.concat hmem ih

/-- The keys stand in the order in which they are said first. -/
theorem map_key_merge (said : List Property) :
    (merge said).map (·.key) = (said.map (·.key)).eraseDups := by
  induction said using List.reverseRecOn with
  | nil => rfl
  | append_singleton said p ih =>
      rw [merge_append_singleton, map_key_set, ih, List.map_append, List.eraseDups_append,
        List.removeAll, List.map_singleton]
      by_cases hmem : p.key ∈ said.map (·.key)
      · rw [if_pos (List.mem_eraseDups.mpr hmem), List.filter_cons_of_neg (by simpa using hmem)]
        exact (List.append_nil _).symm
      · rw [if_neg (mt List.mem_eraseDups.mp hmem), List.filter_cons_of_pos (by simpa using hmem)]
        rfl

/-- What is set is what is given, and all that has another key. -/
theorem mem_set {p q : Property} {ps : List Property} (hnodup : (ps.map (·.key)).Nodup)
    (h : q ∈ set p ps) : q = p ∨ q ∈ ps ∧ q.key ≠ p.key := by
  induction ps with
  | nil => exact .inl (List.mem_singleton.mp h)
  | cons first ps ih =>
      rw [List.map_cons, List.nodup_cons] at hnodup
      rw [set] at h
      split_ifs at h with hfirst
      · rcases List.mem_cons.mp h with rfl | h
        · exact .inl rfl
        · refine .inr ⟨List.mem_cons_of_mem _ h, fun hkey => hnodup.1 ?_⟩
          rw [hfirst, ← hkey]
          exact List.mem_map_of_mem h
      · rcases List.mem_cons.mp h with rfl | h
        · exact .inr ⟨List.mem_cons_self, hfirst⟩
        · exact (ih hnodup.2 h).imp_right fun ⟨hmem, hkey⟩ => ⟨List.mem_cons_of_mem _ hmem, hkey⟩

/-- Of the properties with one key the last one remains. -/
theorem exists_last_of_mem_merge {said : List Property} {p : Property} (h : p ∈ merge said) :
    ∃ before after, said = before ++ p :: after ∧ ∀ q ∈ after, q.key ≠ p.key := by
  induction said using List.reverseRecOn with
  | nil => exact nomatch h
  | append_singleton said last ih =>
      rw [merge_append_singleton] at h
      rcases mem_set (nodup_map_key_merge said) h with rfl | ⟨hmem, hkey⟩
      · exact ⟨said, [], rfl, List.forall_mem_nil _⟩
      · obtain ⟨before, after, rfl, hafter⟩ := ih hmem
        refine ⟨before, after ++ [last], by simp, ?_⟩
        exact List.forall_mem_append.mpr ⟨hafter, List.forall_mem_singleton.mpr (Ne.symm hkey)⟩

/-- A property can be broken, at any place inside it where the text before does not end in a
backslash and the text behind does not start with a blank, into one line more, with any blanks in
front of it: keys and values stay. And a text is laid out as lines that say nothing and properties,
of which those with one key give one, at the place of the first and with the value and the line of
the last one. -/
theorem ofText_broken_and_merged :
    (∀ before blanks after, InProperty before → before.getLast? ≠ some '\\' →
      (∀ c ∈ after.head?, isBlank c = false) → (∀ c ∈ blanks, isBlank c = true ∧ c ≠ '\n') →
        (ofText (String.ofList (before ++ '\\' :: '\n' :: (blanks ++ after)))).map entry
          = (ofText (String.ofList (before ++ after))).map entry) ∧
      ∀ text, ∃ wholes, Laid 1 (lines text.toList) wholes ∧
        let said := wholes.map ofWhole
        ((ofText text).map (·.key)).Nodup ∧
          (ofText text).map (·.key) = (said.map (·.key)).eraseDups ∧
          ∀ p ∈ ofText text, ∃ before after, said = before ++ p :: after ∧
            ∀ q ∈ after, q.key ≠ p.key := by
  refine ⟨fun before blanks after hinside hbefore hafter hblanks =>
    map_entry_ofText (texts_lines_insert hinside hbefore hafter hblanks), fun text => ?_⟩
  refine ⟨_, (laid_joinLines_and (lines text.toList) 1).1, ?_⟩
  rw [ofText_eq]
  exact ⟨nodup_map_key_merge _, map_key_merge _, fun p hp => exists_last_of_mem_merge hp⟩

/-- A value broken in front of a number sign, which would start a comment on a line of its own. -/
theorem ofText_broken_and_merged_comment :
    let before := "! none\nkey = a".toList
    let blanks := [' ', '\t']
    let after := "# b\n\nother:1\nkey x \\".toList
    InProperty before ∧ before.getLast? ≠ some '\\' ∧ (∀ c ∈ after.head?, isBlank c = false) ∧
      (∀ c ∈ blanks, isBlank c = true ∧ c ≠ '\n') ∧
      (ofText (String.ofList (before ++ '\\' :: '\n' :: (blanks ++ after)))).map entry
        = (ofText (String.ofList (before ++ after))).map entry ∧
      (ofText (String.ofList (before ++ '\\' :: '\n' :: (blanks ++ after))))
        = [⟨"key", "x", 6⟩, ⟨"other", "1", 5⟩] := by
  intro before blanks after
  have hinside : InProperty before :=
    ⟨"! none\n".toList, "key = a".toList, by decide, .inr (by decide), by decide,
      .inr (by decide +kernel)⟩
  have hbefore : before.getLast? ≠ some '\\' := by decide
  have hafter : ∀ c ∈ after.head?, isBlank c = false := by
    rintro _ ⟨⟩
    decide
  have hblanks : ∀ c ∈ blanks, isBlank c = true ∧ c ≠ '\n' :=
    List.forall_mem_cons.mpr ⟨by decide, List.forall_mem_singleton.mpr (by decide)⟩
  exact ⟨hinside, hbefore, hafter, hblanks,
    ofText_broken_and_merged.1 before blanks after hinside hbefore hafter hblanks,
    by decide +kernel⟩

end Property

end TestSelection
