import TestSelection.Proofs.Letters
import TestSelection.Proofs.Lines
import TestSelection.Proofs.Lists
import TestSelection.Proofs.Squeezing
import TestSelection.Tag.Entry

/-!
The tags of a comment by its lines. A line that starts a tag has a name and the beginning of a
value, and all lines up to the next such line go on with the value, so the lines of a comment are cut
into those in front of the first tag and those of each tag. The cut is kept line by line: a line that
starts a tag opens a new part, and any other one is added to the last part. There is one cut only,
and tags that are written down again are cut like this into the same names and values.
-/

namespace TestSelection.TagEntry

open Chars

/-- Whether a line starts, blanks apart, with an at sign and an ASCII letter. -/
def startsTag (line : List Char) : Bool :=
  match trim line with
  | '@' :: c :: _ => c.isAlpha
  | _ => false

/-- The numbers of the lines that start tags, counted from zero. -/
def tagLines (lines : List (List Char)) : List Nat :=
  (lines.zipIdx.filter fun (line, _) => startsTag line).map Prod.snd

/-- What lines say, blanks around it dropped; a blank line says nothing. -/
def said (lines : List (List Char)) : List (List Char) := (lines.map trim).filter (· ≠ [])

/-- The name of a tag: an ASCII letter, and anything but blanks behind it. -/
structure IsTagName (name : List Char) : Prop where
  letter : ∃ c rest, name = c :: rest ∧ c.isAlpha = true
  no_blank : ∀ c ∈ name, isBlank c = false

/-- Everything that the lines of a tag say, in order. The first line starts the tag: it has its
name, and what it says behind the name begins the value. The other lines start no tag. -/
inductive HasLines (e : TagEntry) : List (List Char) → Prop
  | mk {first rest : List Char} {more : List (List Char)}
      (hname : IsTagName e.name.toList)
      (hfirst : trim first = '@' :: (e.name.toList ++ rest))
      (hrest : ∀ c ∈ rest.head?, isBlank c = true)
      (hmore : ∀ line ∈ more, startsTag line = false)
      (hvalue : e.value.toList = ['\n'].intercalate (said (rest :: more))) :
      HasLines e (first :: more)

/-- Lines are cut into lines that start no tag and the lines of each tag. -/
structure SplitsInto (lines : List (List Char)) (entries : List TagEntry) : Prop where
  /-- There is a tag for each line that starts one, and it keeps the number of this line. -/
  numbers : entries.map line = tagLines lines
  /-- No line is lost, and none belongs to two tags. -/
  parts : ∃ before parts, lines = before ++ parts.flatten ∧
    (∀ line ∈ before, startsTag line = false) ∧ List.Forall₂ HasLines entries parts

variable {e e' : TagEntry} {entries entries' : List TagEntry} {s name rest line : List Char}
  {before before' lines more part : List (List Char)} {parts parts' : List (List (List Char))}

/-! ### Lines that start tags -/

theorem startsTag_trim (line : List Char) : startsTag (trim line) = startsTag line := by
  rw [startsTag, startsTag, trim_trim]

theorem isSome_start?_trim (line : List Char) :
    (start? (trim line)).isSome = startsTag line := by
  rw [startsTag]
  rcases trim line with _ | ⟨sign, _ | ⟨c, rest⟩⟩
  · rfl
  · simp [start?]
  · by_cases hsign : sign = '@'
    · subst hsign
      by_cases hc : c.isAlpha = true <;> simp [start?, hc]
    · simp [start?, hsign]

/-- A line starts a tag with its name, which ends where a blank follows. -/
theorem start?_eq_some_iff :
    start? s = some (name, rest) ↔
      IsTagName name ∧ s = '@' :: (name ++ rest) ∧ ∀ c ∈ rest.head?, isBlank c = true := by
  constructor
  · intro h
    unfold start? at h
    split at h
    · rename_i c s
      split at h
      · rename_i hc
        obtain ⟨rfl, rfl⟩ := Prod.mk.inj (Option.some.inj h)
        have hblank : isBlank c = false :=
          isBlank_of_isWordChar (isWordChar_iff.mpr (Or.inl hc))
        refine ⟨⟨⟨c, s.takeWhile (!isBlank ·), by simp [hblank], hc⟩, fun d hd => ?_⟩, ?_, ?_⟩
        · simpa using List.mem_takeWhile_imp hd
        · rw [List.takeWhile_append_dropWhile]
        · intro d hd
          simpa using head?_dropWhile (p := (!isBlank ·)) (c :: s) d hd
      · exact nomatch h
    · exact nomatch h
  · rintro ⟨⟨⟨c, more, rfl, hc⟩, hblank⟩, rfl, hrest⟩
    have hname : ∀ d ∈ c :: more, (!isBlank d) = true := by simpa using hblank
    have hhead : ∀ d ∈ rest.head?, (!isBlank d) = false := by simpa using hrest
    rw [List.cons_append, start?, if_pos hc, ← List.cons_append,
      takeWhile_append_of_head? hname hhead, dropWhile_append_of_head? hname hhead]

/-! ### What lines say -/

theorem said_append (lines lines' : List (List Char)) :
    said (lines ++ lines') = said lines ++ said lines' := by
  rw [said, said, said, List.map_append, List.filter_append]

theorem said_singleton (line : List Char) :
    said [line] = if trim line = [] then [] else [trim line] := by
  by_cases h : trim line = [] <;> simp [said, h]

theorem said_cons (line : List Char) (lines : List (List Char)) :
    said (line :: lines) = said [line] ++ said lines :=
  said_append [line] lines

theorem of_mem_said {piece : List Char} (h : piece ∈ said lines) :
    piece ≠ [] ∧ trim piece = piece ∧ ∃ line ∈ lines, trim line = piece := by
  obtain ⟨hmem, hne⟩ := List.mem_filter.mp h
  obtain ⟨line, hline, rfl⟩ := List.mem_map.mp hmem
  exact ⟨by simpa using hne, trim_trim line, line, hline, rfl⟩

/-- Lines without blanks at their ends, none of which is empty, say themselves. -/
theorem said_of_trim (h : ∀ line ∈ lines, line ≠ [] ∧ trim line = line) : said lines = lines := by
  rw [said, List.map_congr_left fun line hline => (h line hline).2, List.map_id', List.filter_eq_self]
  intro line hline
  simpa using (h line hline).1

/-- Behind the first thing that is said no line starts a tag. -/
theorem startsTag_of_said_eq_cons {pieces : List (List Char)} {piece : List Char}
    (hmore : ∀ line ∈ more, startsTag line = false) (hsaid : said (line :: more) = s :: pieces)
    (h : piece ∈ pieces) : startsTag piece = false := by
  have hmem : piece ∈ said more := by
    rw [said_cons, said_singleton] at hsaid
    split_ifs at hsaid
    · rw [List.nil_append] at hsaid
      exact hsaid ▸ List.mem_cons_of_mem s h
    · obtain ⟨-, rfl⟩ := List.cons.inj hsaid
      exact h
  obtain ⟨-, -, line, hline, rfl⟩ := of_mem_said hmem
  rw [startsTag_trim]
  exact hmore line hline

/-! ### One line after the other -/

theorem tagLines_append_singleton (lines : List (List Char)) (line : List Char) :
    tagLines (lines ++ [line])
      = tagLines lines ++ if startsTag line then [lines.length] else [] := by
  rw [tagLines, tagLines, List.zipIdx_append, List.filter_append, List.map_append]
  by_cases h : startsTag line = true <;> simp [h]

theorem pairwise_tagLines (lines : List (List Char)) : (tagLines lines).Pairwise (· < ·) := by
  have hsublist : (tagLines lines).Sublist (lines.zipIdx.map Prod.snd) :=
    List.filter_sublist.map Prod.snd
  refine List.Pairwise.sublist hsublist ?_
  rw [List.zipIdx_map_snd]
  exact List.pairwise_lt_range'

theorem SplitsInto.nil : SplitsInto [] [] where
  numbers := rfl
  parts := ⟨[], [], rfl, nofun, .nil⟩

theorem name_extend (e : TagEntry) (line : List Char) : (e.extend line).name = e.name := by
  unfold extend
  split_ifs <;> rfl

theorem line_extend (e : TagEntry) (line : List Char) : (e.extend line).line = e.line := by
  unfold extend
  split_ifs <;> rfl

/-- A further line that starts no tag goes on with the value. -/
theorem HasLines.append_singleton (h : e.HasLines part) (hline : startsTag line = false) :
    (e.extend (trim line)).HasLines (part ++ [line]) := by
  obtain @⟨first, rest, more, hname, hfirst, hrest, hmore, hvalue⟩ := h
  rw [List.cons_append]
  refine .mk (by rwa [name_extend]) (by rwa [name_extend]) hrest ?_ ?_
  · exact List.forall_mem_append.mpr ⟨hmore, List.forall_mem_singleton.mpr hline⟩
  rw [← List.cons_append, said_append, said_singleton]
  have hempty := intercalate_eq_nil_iff '\n' fun piece (hpiece : piece ∈ said (rest :: more)) =>
    (of_mem_said hpiece).1
  unfold extend
  split_ifs with hblank hnil
  · rw [hvalue, List.append_nil]
  · have hnone : said (rest :: more) = [] := by
      rw [← hempty, ← hvalue]
      simpa using hnil
    rw [hnone, List.nil_append, List.intercalate_singleton, String.toList_ofList]
  · have hsome : said (rest :: more) ≠ [] := by
      rw [Ne, ← hempty, ← hvalue]
      simpa using hnil
    rw [intercalate_append_singleton hsome, ← hvalue]
    simp

/-- The same with the last tag first, as the tags so far are kept. -/
theorem splitsInto_reverse_iff :
    SplitsInto lines entries.reverse ↔ (entries.map (·.line)).reverse = tagLines lines ∧
      ∃ before parts, lines = before ++ parts.reverse.flatten ∧
        (∀ line ∈ before, startsTag line = false) ∧ List.Forall₂ HasLines entries parts := by
  rw [← List.map_reverse]
  constructor
  · rintro ⟨hnumbers, before, parts, hlines, hbefore, hparts⟩
    refine ⟨hnumbers, before, parts.reverse, by rwa [List.reverse_reverse], hbefore, ?_⟩
    rw [← List.forall₂_reverse_iff, List.reverse_reverse]
    exact hparts
  · rintro ⟨hnumbers, before, parts, hlines, hbefore, hparts⟩
    exact ⟨hnumbers, before, parts.reverse, hlines, hbefore, List.forall₂_reverse_iff.mpr hparts⟩

/-- A line that starts a tag opens a new part. -/
theorem SplitsInto.append_start (h : SplitsInto lines entries.reverse)
    (hline : start? (trim line) = some (name, rest)) :
    SplitsInto (lines ++ [line])
      (⟨String.ofList name, String.ofList (trim rest), lines.length⟩ :: entries).reverse := by
  rw [splitsInto_reverse_iff] at h ⊢
  obtain ⟨hnumbers, before, parts, hlines, hbefore, hparts⟩ := h
  obtain ⟨hname, htrim, hrest⟩ := start?_eq_some_iff.mp hline
  have hstart : startsTag line = true := by rw [← isSome_start?_trim, hline, Option.isSome_some]
  have hvalue : trim rest = ['\n'].intercalate (said [rest]) := by
    rw [said_singleton]
    split_ifs with hblank
    · exact hblank
    · exact List.intercalate_singleton.symm
  refine ⟨?_, before, [line] :: parts, by simp [hlines], hbefore,
    .cons (.mk ?_ ?_ hrest nofun ?_) hparts⟩
  · rw [List.map_cons, List.reverse_cons, hnumbers, tagLines_append_singleton, if_pos hstart]
  all_goals rwa [String.toList_ofList]

/-- Any other line goes to the last part, or in front of the first one if there is none yet. -/
theorem SplitsInto.append_other (h : SplitsInto lines entries.reverse)
    (hline : startsTag line = false) :
    SplitsInto (lines ++ [line]) (entries.modifyHead (·.extend (trim line))).reverse := by
  rw [splitsInto_reverse_iff] at h ⊢
  obtain ⟨hnumbers, before, parts, hlines, hbefore, hparts⟩ := h
  have hsame : tagLines (lines ++ [line]) = tagLines lines := by
    rw [tagLines_append_singleton, hline]
    exact List.append_nil _
  rw [hsame]
  cases hparts with
  | nil =>
      refine ⟨hnumbers, before ++ [line], [], by simp [hlines], ?_, .nil⟩
      exact List.forall_mem_append.mpr ⟨hbefore, List.forall_mem_singleton.mpr hline⟩
  | @cons e part entries parts hpart hparts =>
      refine ⟨?_, before, (part ++ [line]) :: parts, by simp [hlines], hbefore,
        .cons (hpart.append_singleton hline) hparts⟩
      rw [← hnumbers, List.modifyHead_cons, List.map_cons, List.map_cons, line_extend]

/-- Taking a line keeps the cut. -/
theorem SplitsInto.append_singleton (h : SplitsInto lines entries.reverse) (line : List Char) :
    SplitsInto (lines ++ [line]) (addLine entries lines.length line).reverse := by
  have hstart := isSome_start?_trim line
  unfold addLine
  dsimp only
  cases hline : start? (trim line) with
  | some start => exact h.append_start hline
  | none =>
      rw [hline, Option.isSome_none] at hstart
      have hnext := h.append_other hstart.symm
      cases entries <;> exact hnext

theorem splitsInto_ofLines (h : SplitsInto before entries.reverse) (lines : List (List Char)) :
    SplitsInto (before ++ lines) (ofLines entries before.length lines) := by
  induction lines generalizing before entries with
  | nil =>
      rw [List.append_nil]
      exact h
  | cons line lines ih =>
      have hnext := ih (h.append_singleton line)
      rwa [List.append_assoc, List.singleton_append, List.length_append] at hnext

theorem splitsInto_ofComment (comment : String) :
    SplitsInto (Chars.lines comment.toList) (ofComment comment) :=
  @splitsInto_ofLines [] [] .nil _

theorem isTagName_of_mem_ofComment {comment : String} (h : e ∈ ofComment comment) :
    IsTagName e.name.toList := by
  obtain ⟨-, before, parts, -, -, hparts⟩ := splitsInto_ofComment comment
  obtain ⟨part, -, @⟨first, rest, more, hname, -, -, -, -⟩⟩ := exists_mem_of_forall₂ hparts h
  exact hname

/-! ### One cut only -/

theorem HasLines.exists_cons (h : e.HasLines part) :
    ∃ first more, part = first :: more ∧ startsTag first = true ∧
      ∀ line ∈ more, startsTag line = false := by
  obtain @⟨first, rest, more, hname, hfirst, -, hmore, -⟩ := h
  obtain ⟨c, name, hcons, hc⟩ := hname.letter
  refine ⟨first, more, rfl, ?_, hmore⟩
  rw [startsTag, hfirst, hcons]
  exact hc

theorem startsTag_of_head?_flatten (h : List.Forall₂ HasLines entries parts) :
    ∀ line ∈ parts.flatten.head?, startsTag line = true := by
  cases h with
  | nil => exact nofun
  | cons hpart _ =>
      obtain ⟨first, more, rfl, hfirst, -⟩ := hpart.exists_cons
      rintro _ ⟨⟩
      exact hfirst

/-- The lines of a tag have one name and one value. -/
theorem HasLines.unique (h : e.HasLines part) (h' : e'.HasLines part) :
    e.name = e'.name ∧ e.value = e'.value := by
  obtain @⟨first, rest, more, hname, hfirst, hrest, -, hvalue⟩ := h
  obtain @⟨_, rest', _, hname', hfirst', hrest', -, hvalue'⟩ := h'
  have hcut : e.name.toList = e'.name.toList ∧ rest = rest' := by
    apply append_inj_of_head? (p := (!isBlank ·))
    · simpa using hname.no_blank
    · simpa using hrest
    · simpa using hname'.no_blank
    · simpa using hrest'
    · exact (List.cons.inj (hfirst.symm.trans hfirst')).2
  obtain ⟨hnames, rfl⟩ := hcut
  exact ⟨String.toList_inj.mp hnames, String.toList_inj.mp (hvalue.trans hvalue'.symm)⟩

/-- Two cuts of the same lines give the same names and values. -/
theorem forall₂_hasLines_unique (h : List.Forall₂ HasLines entries parts)
    (h' : List.Forall₂ HasLines entries' parts') (heq : parts.flatten = parts'.flatten) :
    entries.map (fun e => (e.name, e.value)) = entries'.map fun e => (e.name, e.value) := by
  induction h generalizing entries' parts' with
  | nil =>
      cases h' with
      | nil => rfl
      | cons hpart' _ =>
          obtain ⟨first, more, rfl, -⟩ := hpart'.exists_cons
          exact nomatch heq
  | @cons e part entries parts hpart hparts ih =>
      obtain ⟨first, more, rfl, -, hmore⟩ := hpart.exists_cons
      cases h' with
      | nil => exact nomatch heq
      | @cons e' part' entries' parts' hpart' hparts' =>
          obtain ⟨first', more', rfl, -, hmore'⟩ := hpart'.exists_cons
          obtain ⟨rfl, hflatten⟩ := List.cons.inj heq
          obtain ⟨rfl, hrest⟩ : more = more' ∧ parts.flatten = parts'.flatten := by
            apply append_inj_of_head? (p := (!startsTag ·))
            · simpa using hmore
            · simpa using startsTag_of_head?_flatten hparts
            · simpa using hmore'
            · simpa using startsTag_of_head?_flatten hparts'
            · exact hflatten
          obtain ⟨hname, hvalue⟩ := hpart.unique hpart'
          rw [List.map_cons, List.map_cons, ih hparts' hrest, hname, hvalue]

/-! ### Tags written down -/

/-- A tag as it is written: its value starts on its line. -/
def written (e : TagEntry) : String := "@" ++ e.name ++ " " ++ e.value

def writtenAll (entries : List TagEntry) : String :=
  String.join (entries.map fun e => e.written ++ "\n")

theorem trimEnd_blank_cons (hs : trim s = s) :
    trimEnd (' ' :: s) = if s = [] then [] else ' ' :: s := by
  have hend : trimEnd s = s := by rw [← trim_of_head (ends_of_trim hs).1, hs]
  have hblank : isBlank ' ' = true := rfl
  by_cases h : s = []
  · subst h
    rfl
  · simp [trimEnd_cons, hend, hblank, h]

/-- Behind the name of a tag one blank stands, unless nothing is said there. -/
theorem trim_written (hname : IsTagName name) (hs : trim s = s) :
    trim ('@' :: (name ++ ' ' :: s)) = '@' :: (name ++ if s = [] then [] else ' ' :: s) := by
  obtain ⟨c, more, hcons, -⟩ := hname.letter
  have hne : name ≠ [] := hcons ▸ List.cons_ne_nil c more
  have hlast : ∀ c ∈ name.getLast?, isBlank c = false := fun c hc =>
    hname.no_blank c (List.mem_of_mem_getLast? hc)
  rw [trim_cons_of_not rfl, trimEnd_append hne hlast, trimEnd_blank_cons hs]

/-- A tag with what it says: a text on its own line, and further lines, of which there are none if
this text is empty. -/
structure Says (e : TagEntry) (s : List Char) (pieces : List (List Char)) : Prop where
  name : IsTagName e.name.toList
  trim_eq : trim s = s
  no_feed : '\n' ∉ s
  nil : s = [] → pieces = []
  isLine : ∀ piece ∈ pieces, IsLine piece
  trims : ∀ piece ∈ pieces, piece ≠ [] ∧ trim piece = piece
  starts : ∀ piece ∈ pieces, startsTag piece = false
  value : e.value.toList = ['\n'].intercalate (s :: pieces)

theorem HasLines.exists_said (h : e.HasLines part) (hfeed : ∀ line ∈ part, '\n' ∉ line) :
    ∃ s pieces, e.Says s pieces := by
  obtain @⟨first, rest, more, hname, hfirst, -, hmore, hvalue⟩ := h
  have hline : ∀ piece ∈ said (rest :: more), IsLine piece := by
    intro piece hpiece
    obtain ⟨-, htrim, line, hline, rfl⟩ := of_mem_said hpiece
    refine isLine_of_trim (fun hmem => ?_) htrim
    have hmem := mem_of_mem_trim hmem
    rcases List.mem_cons.mp hline with rfl | hline
    · apply hfeed first List.mem_cons_self
      apply mem_of_mem_trim
      rw [hfirst]
      exact List.mem_cons_of_mem _ (List.mem_append_right _ hmem)
    · exact hfeed line (List.mem_cons_of_mem first hline) hmem
  cases hsaid : said (rest :: more) with
  | nil =>
      refine ⟨[], [], hname, rfl, List.not_mem_nil, fun _ => rfl, nofun, nofun, nofun, ?_⟩
      rw [hvalue, hsaid]
      rfl
  | cons s pieces =>
      have hmem : ∀ piece ∈ s :: pieces, piece ∈ said (rest :: more) := fun _ h => hsaid ▸ h
      have hmems : ∀ piece ∈ pieces, piece ∈ said (rest :: more) := fun piece h =>
        hmem piece (List.mem_cons_of_mem s h)
      obtain ⟨hne, htrim, -⟩ := of_mem_said (hmem s List.mem_cons_self)
      refine ⟨s, pieces, hname, htrim, (hline s (hmem s List.mem_cons_self)).no_feed,
        fun hempty => absurd hempty hne, fun piece h => hline piece (hmems piece h),
        fun piece h => ?_, fun piece h => startsTag_of_said_eq_cons hmore hsaid h, hsaid ▸ hvalue⟩
      obtain ⟨hne, htrim, -⟩ := of_mem_said (hmems piece h)
      exact ⟨hne, htrim⟩

/-- The lines that a tag with its value is written in. -/
def writtenLines (name s : List Char) (pieces : List (List Char)) : List (List Char) :=
  ('@' :: (name ++ ' ' :: s)) :: pieces

variable {pieces : List (List Char)}

theorem Says.toList_written (h : e.Says s pieces) :
    e.written.toList = ['\n'].intercalate (writtenLines e.name.toList s pieces) := by
  have hfront := intercalate_append_cons '\n' ('@' :: (e.name.toList ++ [' '])) s pieces
  rw [List.cons_append, List.append_assoc, List.singleton_append] at hfront
  rw [writtenLines, hfront, ← h.value]
  simp [written]

theorem Says.isLine_writtenLines (h : e.Says s pieces) :
    ∀ line ∈ writtenLines e.name.toList s pieces, IsLine line := by
  have hname : '\n' ∉ e.name.toList := fun hmem => absurd (h.name.no_blank _ hmem) (by decide)
  refine List.forall_mem_cons.mpr ⟨⟨by simp [hname, h.no_feed], ?_⟩, h.isLine⟩
  by_cases hempty : s = []
  · rw [hempty, ← List.cons_append, List.getLast?_concat]
    rintro _ ⟨⟩
    decide
  · have htrim := trim_written h.name h.trim_eq
    rw [if_neg hempty] at htrim
    intro c hc heq
    subst heq
    exact absurd ((ends_of_trim htrim).2 _ hc) (by decide)

/-- The lines that a tag is written in are lines of this tag. -/
theorem Says.hasLines (h : e.Says s pieces) :
    e.HasLines (writtenLines e.name.toList s pieces) := by
  refine .mk h.name (trim_written h.name h.trim_eq) ?_ h.starts ?_
  · intro c hc
    split_ifs at hc
    · exact nomatch hc
    · obtain rfl := Option.some.inj hc
      rfl
  rw [h.value, said_cons, said_singleton, said_of_trim h.trims]
  by_cases hempty : s = []
  · rw [hempty, h.nil hempty]
    rfl
  · rw [if_neg hempty, trim_blank rfl, h.trim_eq, if_neg hempty]
    rfl

/-- The lines of tags that are written one below the other are lines of these tags. -/
theorem exists_lines_writtenAll (h : List.Forall₂ HasLines entries parts)
    (hfeed : ∀ part ∈ parts, ∀ line ∈ part, '\n' ∉ line) :
    ∃ parts', List.Forall₂ HasLines entries parts' ∧
      Chars.lines (writtenAll entries).toList = parts'.flatten := by
  induction h with
  | nil => exact ⟨[], .nil, rfl⟩
  | @cons e part entries parts hpart hparts ih =>
      obtain ⟨hfeed, hfeeds⟩ := List.forall_mem_cons.mp hfeed
      obtain ⟨s, pieces, hsaid⟩ := hpart.exists_said hfeed
      obtain ⟨parts', hparts', hrest⟩ := ih hfeeds
      refine ⟨_ :: parts', .cons hsaid.hasLines hparts', ?_⟩
      have hcons : (writtenAll (e :: entries)).toList
          = e.written.toList ++ '\n' :: (writtenAll entries).toList := by
        simp [writtenAll]
      have hne : writtenLines e.name.toList s pieces ≠ [] := List.cons_ne_nil _ _
      rw [hcons, hsaid.toList_written, lines_intercalate_append hne hsaid.isLine_writtenLines,
        hrest, List.flatten_cons]

/-- The tags of a comment stand for its lines: there is one for each line that starts a tag, in
their order and with their numbers, and each of them has all that is said from its line on up to the
next one. Written down one below the other they are read as the same names and values again. -/
theorem ofComment_splits (comment : String) :
    let lines := Chars.lines comment.toList
    let entries := ofComment comment
    SplitsInto lines entries ∧ entries.Pairwise (·.line < ·.line) ∧
      (ofComment (writtenAll entries)).map (fun e => (e.name, e.value))
        = entries.map fun e => (e.name, e.value) := by
  intro lines entries
  have hsplit := splitsInto_ofComment comment
  refine ⟨hsplit, ?_, ?_⟩
  · rw [← List.pairwise_map, hsplit.numbers]
    exact pairwise_tagLines lines
  · obtain ⟨before, parts, hlines, -, hparts⟩ := hsplit.parts
    have hfeed : ∀ part ∈ parts, ∀ line ∈ part, '\n' ∉ line := by
      intro part hpart line hline
      apply feed_notMem_of_mem_lines (s := comment.toList)
      rw [hlines]
      exact List.mem_append_right _ (List.mem_flatten_of_mem hpart hline)
    obtain ⟨written, hwritten, htext⟩ := exists_lines_writtenAll hparts hfeed
    obtain ⟨before', parts', hlines', hbefore', hparts'⟩ :=
      (splitsInto_ofComment (writtenAll entries)).parts
    obtain ⟨-, hflatten⟩ : before' = [] ∧ parts'.flatten = written.flatten := by
      apply append_inj_of_head? (p := (!startsTag ·))
      · simpa using hbefore'
      · simpa using startsTag_of_head?_flatten hparts'
      · exact nofun
      · simpa using startsTag_of_head?_flatten hwritten
      · rw [← hlines', htext, List.nil_append]
    exact forall₂_hasLines_unique hparts' hwritten hflatten

/-- A value may start behind the line of its tag, and have at signs in it. -/
example : writtenAll (ofComment "text\n @test\r\n@summary\n\n  uses @x\n @ 1")
    = "@test \n@summary uses @x\n@ 1\n" := by
  decide +kernel

end TestSelection.TagEntry
