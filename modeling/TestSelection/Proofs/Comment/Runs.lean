import TestSelection.Comment.Registry
import TestSelection.Proofs.Comment.ShellScan
import TestSelection.Proofs.Lists

/-!
Shell comments are the maximal runs of comment lines. Runs that follow each other from the first
line on, with another line behind each of them, are all maximal runs there are, and every comment
line is in exactly one of them. The scan comes from one such run to the next, and the comment that
it makes of a run has a line for each line of the run.
-/

namespace TestSelection.Comment

/-! ### Maximal runs -/

/-- The places of lines from one on up to another one, the latter not included. -/
structure LineRun where
  start : Nat
  stop : Nat

namespace LineRun

variable {p : Nat → Prop} {r s : LineRun} {runs : List LineRun} {i place : Nat}

def Covers (r : LineRun) (i : Nat) : Prop := r.start ≤ i ∧ i < r.stop

/-- All places of a run have a property, and it cannot be made longer at either end. -/
structure IsMaximal (p : Nat → Prop) (r : LineRun) : Prop where
  lt : r.start < r.stop
  all : ∀ i, r.Covers i → p i
  left : ∀ i, i + 1 = r.start → ¬ p i
  right : ¬ p r.stop

theorem IsMaximal.start_le (hr : r.IsMaximal p) (hs : s.IsMaximal p) (hri : r.Covers i)
    (hsi : s.Covers i) : s.start ≤ r.start := by
  obtain ⟨-, hrstop⟩ := hri
  obtain ⟨hsstart, -⟩ := hsi
  by_contra hlt
  have hbefore : r.Covers (s.start - 1) := ⟨by omega, by omega⟩
  exact hs.left (s.start - 1) (by omega) (hr.all _ hbefore)

theorem IsMaximal.stop_le (hr : r.IsMaximal p) (hs : s.IsMaximal p) (hri : r.Covers i)
    (hsi : s.Covers i) : r.stop ≤ s.stop := by
  obtain ⟨hrstart, -⟩ := hri
  obtain ⟨-, hsstop⟩ := hsi
  by_contra hlt
  have hbehind : r.Covers s.stop := ⟨by omega, by omega⟩
  exact hs.right (hr.all _ hbehind)

/-- Maximal runs that have a place in common are one. -/
theorem IsMaximal.eq_of_covers (hr : r.IsMaximal p) (hs : s.IsMaximal p) (hri : r.Covers i)
    (hsi : s.Covers i) : r = s := by
  have hstart := Nat.le_antisymm (hs.start_le hr hsi hri) (hr.start_le hs hri hsi)
  have hstop := Nat.le_antisymm (hr.stop_le hs hri hsi) (hs.stop_le hr hsi hri)
  cases r
  cases s
  simp_all

/-- Runs that follow each other from a place on, with no place of the property outside of them. -/
inductive FollowFrom (p : Nat → Prop) : (place : Nat) → List LineRun → Prop
  | none {place : Nat} (hgap : ∀ i, place ≤ i → ¬ p i) : FollowFrom p place []
  | next {place : Nat} {r : LineRun} {runs : List LineRun} (hle : place ≤ r.start)
      (hgap : ∀ i, place ≤ i → i < r.start → ¬ p i) (hlt : r.start < r.stop)
      (hall : ∀ i, r.Covers i → p i) (hstop : ¬ p r.stop) (hrest : FollowFrom p (r.stop + 1) runs) :
      FollowFrom p place (r :: runs)

/-- A place without the property may be passed over. -/
theorem followFrom_succ_iff (hplace : ¬ p place) :
    FollowFrom p (place + 1) runs ↔ FollowFrom p place runs := by
  have hbehind {i : Nat} (hi : place ≤ i) (hp : p i) : place + 1 ≤ i := by
    refine Nat.lt_of_le_of_ne hi ?_
    rintro rfl
    exact hplace hp
  constructor
  · intro h
    cases h with
    | none hgap => exact .none fun i hi hp => hgap i (hbehind hi hp) hp
    | next hle hgap hlt hall hstop hrest =>
        refine .next (by omega) (fun i hi hlt hp => ?_) hlt hall hstop hrest
        exact hgap i (hbehind hi hp) hlt hp
  · intro h
    cases h with
    | none hgap => exact .none fun i hi => hgap i (by omega)
    | next hle hgap hlt hall hstop hrest =>
        refine .next (hbehind hle (hall _ ⟨le_rfl, hlt⟩)) (fun i hi => ?_) hlt hall hstop hrest
        exact hgap i (by omega)

theorem FollowFrom.le_start (h : FollowFrom p place runs) (hr : r ∈ runs) : place ≤ r.start := by
  induction h with
  | none => exact nomatch hr
  | next hle _ hlt _ _ _ ih =>
      rcases List.mem_cons.mp hr with rfl | hr
      · exact hle
      · have := ih hr
        omega

theorem FollowFrom.isMaximal (h : FollowFrom p place runs) (hplace : ∀ i, i + 1 = place → ¬ p i)
    (hr : r ∈ runs) : r.IsMaximal p := by
  induction h with
  | none => exact nomatch hr
  | @next place first runs hle hgap hlt hall hstop hrest ih =>
      rcases List.mem_cons.mp hr with rfl | hr
      · refine ⟨hlt, hall, fun i hi => ?_, hstop⟩
        by_cases hbefore : i + 1 = place
        · exact hplace i hbefore
        · exact hgap i (by omega) (by omega)
      · refine ih (fun i hi => ?_) hr
        rwa [Nat.add_right_cancel hi]

/-- Between two of the runs there is another place. -/
theorem FollowFrom.pairwise (h : FollowFrom p place runs) :
    runs.Pairwise fun r s => r.stop < s.start := by
  induction h with
  | none => exact .nil
  | next _ _ _ _ _ hrest ih => exact .cons (fun s hs => hrest.le_start hs) ih

theorem FollowFrom.exists_covers (h : FollowFrom p place runs) (hi : place ≤ i) (hp : p i) :
    ∃ r ∈ runs, r.Covers i := by
  induction h with
  | none hgap => exact absurd hp (hgap i hi)
  | @next place first runs _ hgap _ _ hstop _ ih =>
      by_cases hcovers : first.Covers i
      · exact ⟨first, List.mem_cons_self, hcovers⟩
      · have hstart : first.start ≤ i := by
          by_contra hlt
          exact hgap i hi (by omega) hp
        have hne : i ≠ first.stop := by
          rintro rfl
          exact hstop hp
        have hbehind : first.stop + 1 ≤ i := by
          unfold Covers at hcovers
          omega
        obtain ⟨r, hr, hri⟩ := ih hbehind
        exact ⟨r, List.mem_cons_of_mem first hr, hri⟩

/-- Runs that follow each other from the very first place on are the maximal ones. -/
theorem FollowFrom.mem_iff (h : FollowFrom p 0 runs) : r ∈ runs ↔ r.IsMaximal p := by
  have hmaximal {r : LineRun} (hr : r ∈ runs) : r.IsMaximal p :=
    h.isMaximal (fun i hi => nomatch hi) hr
  refine ⟨hmaximal, fun hr => ?_⟩
  have hstart : r.Covers r.start := ⟨le_rfl, hr.lt⟩
  obtain ⟨s, hs, hcovers⟩ := h.exists_covers (Nat.zero_le _) (hr.all _ hstart)
  rwa [hr.eq_of_covers (hmaximal hs) hstart hcovers]

theorem FollowFrom.existsUnique_covers (h : FollowFrom p 0 runs) (hp : p i) :
    ∃! r, r ∈ runs ∧ r.Covers i := by
  obtain ⟨r, hr, hri⟩ := h.exists_covers (Nat.zero_le i) hp
  refine ⟨r, ⟨hr, hri⟩, fun s ⟨hs, hsi⟩ => ?_⟩
  exact (h.mem_iff.mp hs).eq_of_covers (h.mem_iff.mp hr) hsi hri

end LineRun

variable {line said : List Char} {before lines run pieces : List (List Char)} {i : Nat}

/-! ### Comment lines -/

/-- A line whose first sign, blanks apart, is a number sign without an exclamation mark behind it,
and what it says. -/
def IsShellLine (line said : List Char) : Prop :=
  ∃ indent body, line = indent ++ '#' :: body ∧ (∀ c ∈ indent, Chars.isBlank c = true) ∧
    body.head? ≠ some '!' ∧ said = Chars.trim body

theorem shellLine?_eq_some_iff : shellLine? line = some said ↔ IsShellLine line said := by
  have hcons {indent body : List Char} (hindent : ∀ c ∈ indent, Chars.isBlank c = true) :
      shellLine? (indent ++ '#' :: body)
        = if body.head? ≠ some '!' then some (Chars.trim body) else none := by
    rw [shellLine?_append hindent, shellLine?_cons (by decide)]
    simp
  constructor
  · intro h
    obtain ⟨indent, body, rfl, hindent⟩ := shellLine?_isSome (Option.isSome_of_eq_some h)
    rw [hcons hindent] at h
    split_ifs at h with hbody
    exact ⟨indent, body, rfl, hindent, hbody, (Option.some.inj h).symm⟩
  · rintro ⟨indent, body, rfl, hindent, hbody, rfl⟩
    rw [hcons hindent, if_pos hbody]

/-- At a place of a list there is a comment line. -/
def IsShellLineAt (lines : List (List Char)) (i : Nat) : Prop :=
  ∃ line said, lines[i]? = some line ∧ IsShellLine line said

theorem isShellLineAt_iff :
    IsShellLineAt lines i ↔ ∃ line, lines[i]? = some line ∧ shellLine? line ≠ none := by
  refine exists_congr fun line => ?_
  rw [exists_and_left, Option.ne_none_iff_exists']
  simp only [shellLine?_eq_some_iff]

def linesOf (lines : List (List Char)) (r : LineRun) : List (List Char) :=
  (lines.drop r.start).take (r.stop - r.start)

/-- A comment stands on the first line of a run, and has for each line of it a line with what that
one says. -/
structure SaysRun (lines : List (List Char)) (r : LineRun) (comment : Comment) : Prop where
  line : comment.line = r.start + 1
  text : List.Forall₂ IsShellLine (linesOf lines r) (Chars.splitAt '\n' comment.text.toList)

/-! ### The scan -/

theorem feed_notMem_of_isShellLine (h : IsShellLine line said) (hline : '\n' ∉ line) :
    '\n' ∉ said := by
  obtain ⟨indent, body, rfl, -, -, rfl⟩ := h
  intro hmem
  exact hline (List.mem_append_right indent (List.mem_cons_of_mem '#' (Chars.mem_of_mem_trim hmem)))

theorem forall₂_isShellLine_iff :
    List.Forall₂ IsShellLine run pieces ↔ run.map shellLine? = pieces.map some := by
  rw [← List.forall₂_eq_eq_eq, List.forall₂_map_left_iff, List.forall₂_map_right_iff]
  simp only [shellLine?_eq_some_iff]

theorem not_isShellLineAt_of_le (h : lines.length ≤ i) : ¬ IsShellLineAt lines i := by
  rintro ⟨line, said, hline, -⟩
  rw [List.getElem?_eq_none h] at hline
  exact nomatch hline

/-- Lines are taken apart into other lines and runs of comment lines behind which there is none. -/
theorem shellRuns_induction {motive : List (List Char) → Prop} (nil : motive [])
    (other : ∀ line rest, shellLine? line = none → motive rest → motive (line :: rest))
    (run : ∀ run pieces rest, run ≠ [] → List.Forall₂ IsShellLine run pieces →
      (∀ line ∈ rest.head?, shellLine? line = none) → motive rest → motive (run ++ rest))
    (lines : List (List Char)) : motive lines := by
  obtain ⟨n, hn⟩ : ∃ n, lines.length = n := ⟨_, rfl⟩
  induction n using Nat.strong_induction_on generalizing lines with
  | _ n ih =>
      cases lines with
      | nil => exact nil
      | cons line rest =>
          rw [List.length_cons] at hn
          cases hline : shellLine? line with
          | none => exact other line rest hline (ih rest.length (by omega) rest rfl)
          | some said =>
              let isComment (line : List Char) : Bool := (shellLine? line).isSome
              have hlines : line :: rest
                  = line :: rest.takeWhile isComment ++ rest.dropWhile isComment := by
                rw [List.cons_append, List.takeWhile_append_dropWhile]
              have hrun : ∀ l ∈ line :: rest.takeWhile isComment, isComment l = true := by
                refine List.forall_mem_cons.mpr ⟨Option.isSome_of_eq_some hline, fun l hl => ?_⟩
                exact List.mem_takeWhile_imp (p := isComment) hl
              obtain ⟨pieces, hpieces⟩ := forall_exists_iff_forall₂.mp fun l hl =>
                Option.isSome_iff_exists.mp (hrun l hl)
              simp only [shellLine?_eq_some_iff] at hpieces
              rw [hlines]
              refine run _ pieces _ (List.cons_ne_nil _ _) hpieces (fun l hl => ?_) ?_
              · have hfirst := List.head?_dropWhile_not isComment rest
                rw [Option.mem_def.mp hl] at hfirst
                simpa [isComment] using hfirst
              · have hle := (List.dropWhile_suffix isComment (l := rest)).length_le
                exact ih _ (by omega) _ rfl

theorem linesOf_run (before run rest : List (List Char)) :
    linesOf (before ++ (run ++ rest)) ⟨before.length, before.length + run.length⟩ = run := by
  rw [linesOf, List.drop_left, Nat.add_sub_cancel_left, List.take_left]

theorem saysRun_shellComment (hrun : List.Forall₂ IsShellLine run pieces) (hne : run ≠ [])
    (hfeeds : ∀ line ∈ run, '\n' ∉ line) (before rest : List (List Char)) :
    SaysRun (before ++ (run ++ rest)) ⟨before.length, before.length + run.length⟩
      (shellComment (before.length + 1) pieces.reverse) := by
  have hpieces : pieces ≠ [] := by
    rintro rfl
    exact hne (List.forall₂_nil_right_iff.mp hrun)
  have hsaid : ∀ piece ∈ pieces, '\n' ∉ piece := by
    intro piece hpiece
    obtain ⟨line, hline, h⟩ := exists_mem_of_forall₂ hrun.flip hpiece
    exact feed_notMem_of_isShellLine h (hfeeds line hline)
  refine ⟨rfl, ?_⟩
  rw [linesOf_run, shellComment, List.reverse_reverse, Text.splitAt_unlines hpieces hsaid]
  exact hrun

/-- The lines behind a given number of lines are followed by runs, of which the scan makes its
comments. -/
theorem exists_followFrom (lines before : List (List Char)) (hfeeds : ∀ line ∈ lines, '\n' ∉ line) :
    ∃ runs, LineRun.FollowFrom (IsShellLineAt (before ++ lines)) before.length runs ∧
      List.Forall₂ (SaysRun (before ++ lines)) runs
        (shellRuns (before.length + 1) none lines) := by
  induction lines using shellRuns_induction generalizing before with
  | nil => exact ⟨[], .none fun i hi => not_isShellLineAt_of_le (by simpa using hi), .nil⟩
  | other line rest hline ih =>
      have hplace : ¬ IsShellLineAt (before ++ line :: rest) before.length := by
        simp [isShellLineAt_iff, hline]
      obtain ⟨runs, hruns, hsays⟩ := ih (before ++ [line]) (List.forall_mem_cons.mp hfeeds).2
      rw [List.append_assoc, List.singleton_append, List.length_append, List.length_singleton]
        at hruns hsays
      rw [← List.singleton_append, shellRuns_skip (by simpa using hline)]
      exact ⟨runs, (LineRun.followFrom_succ_iff hplace).mp hruns, hsays⟩
  | run run pieces rest hne hrun hrest ih =>
      obtain ⟨hfeeds, hfeeds'⟩ := List.forall_mem_append.mp hfeeds
      have hall : ∀ i, (⟨before.length, before.length + run.length⟩ : LineRun).Covers i →
          IsShellLineAt (before ++ (run ++ rest)) i := by
        rintro i ⟨hle, hlt⟩
        have hi : i - before.length < run.length := by
          simp only at hle hlt
          omega
        obtain ⟨said, -, hsaid⟩ := exists_mem_of_forall₂ hrun (List.getElem_mem hi)
        refine ⟨run[i - before.length], said, ?_, hsaid⟩
        rw [List.getElem?_append_right hle, List.getElem?_append_left hi,
          List.getElem?_eq_getElem hi]
      have hstop : ¬ IsShellLineAt (before ++ (run ++ rest)) (before.length + run.length) := by
        rw [isShellLineAt_iff, List.getElem?_append_right (Nat.le_add_right _ _),
          Nat.add_sub_cancel_left, List.getElem?_append_right le_rfl, Nat.sub_self,
          ← List.head?_eq_getElem?]
        exact fun ⟨line, hline, hsome⟩ => hsome (hrest line hline)
      obtain ⟨runs, hruns, hsays⟩ := ih (before ++ run) hfeeds'
      rw [List.append_assoc, List.length_append] at hruns hsays
      rw [shellRuns_run (forall₂_isShellLine_iff.mp hrun) hne hrest]
      refine ⟨⟨before.length, before.length + run.length⟩ :: runs, .next le_rfl ?_ ?_ hall hstop ?_,
        .cons (saysRun_shellComment hrun hne hfeeds before rest) ?_⟩
      · exact fun i hi hlt => absurd hi (Nat.not_le_of_lt hlt)
      · exact Nat.lt_add_of_pos_right (List.length_pos_of_ne_nil hne)
      · exact (LineRun.followFrom_succ_iff hstop).mpr hruns
      · rwa [Nat.add_right_comm]

/-- Of every source there is one comment for each maximal run of comment lines, in order, which has
a line for each line of the run and stands on the first of them. Each comment line is in exactly one
of the runs. -/
theorem extract_maximalRuns (source : String) :
    let lines := Chars.lines source.toList
    ∃ runs : List LineRun,
      (∀ r, r ∈ runs ↔ r.IsMaximal (IsShellLineAt lines)) ∧
      runs.Pairwise (fun r s => r.stop < s.start) ∧
      (∀ i, IsShellLineAt lines i → ∃! r, r ∈ runs ∧ r.Covers i) ∧
      List.Forall₂ (SaysRun lines) runs (CommentStyle.shell.extract source) := by
  intro lines
  obtain ⟨runs, hruns, hsays⟩ :=
    exists_followFrom lines [] fun line hline => Chars.feed_notMem_of_mem_lines hline
  exact ⟨runs, fun r => hruns.mem_iff, hruns.pairwise, fun i hi => hruns.existsUnique_covers hi,
    hsays⟩

/-- A line with nothing behind its number sign is a line of its run, and what looks like the first
line of a script is none. -/
example :
    CommentStyle.shell.extract "#!sh\n # a \n#\nb\n#!\n## c" = [⟨2, "a\n"⟩, ⟨6, "# c"⟩] := by
  decide

end TestSelection.Comment
