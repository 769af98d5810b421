import TestSelection.Proofs.Comment.Layout

/-!
Every source is laid out by the scan of its style. At each place a scan for block or HTML comments is
in front of an opening or of something that it passes over; a scan for shell comments is in front of
a gap of whole lines and then of a run, if the source goes on. So the comments that are found stand
one behind the other, each on the line of its first sign, also if a comment or a literal is not
closed.
-/

namespace TestSelection

namespace Comment

variable {c : Char} {s body : List Char}

/-! ### HTML comments -/

/-- In front of a source a character at which no comment opens belongs to the gap. -/
theorem html_skips_cons {gap next : List Char} (h : ¬ htmlOpening <+: c :: (gap ++ next))
    (hgap : CommentStyle.html.Skips gap next) : CommentStyle.html.Skips ([c] ++ gap) next := by
  intro hinfix
  rcases List.infix_cons_iff.mp hinfix with hfront | hinfix
  · exact h (hfront.trans (List.prefix_append (c :: gap) next))
  · exact hgap hinfix

theorem html_delimits : CommentStyle.html.Delimits (fun line => htmlFrom line none) htmlOpening
    htmlClosing Chars.trim where
  opening_ne_nil := List.cons_ne_nil _ _
  closing_ne_nil := List.cons_ne_nil _ _
  lineFeeds_opening := rfl
  lineFeeds_closing := rfl
  stands _ _ _ _ h := h
  nil _ := rfl
  closed body rest line h := by
    have hbody := htmlFrom_body h line line [] rest
    rw [List.append_nil, htmlComment, List.reverse_reverse] at hbody
    exact hbody
  unclosed body line h := by
    have hbody := htmlFrom_body_unclosed h line line []
    rw [List.append_nil, htmlComment, List.reverse_reverse] at hbody
    exact hbody

theorem html_step (before source : List Char) :
    CommentStyle.html.Step (fun line => htmlFrom line none) (fun _ _ => True) before source := by
  by_cases hopens : htmlOpening <+: source
  · obtain ⟨inside, rfl⟩ := hopens
    exact html_delimits.step before inside
  · cases source with
    | nil => exact .stop fun _ => rfl
    | cons c s =>
        rw [← List.singleton_append]
        refine .pass (List.cons_ne_nil c []) ?_ trivial (htmlFrom_cons hopens)
        rintro gap rest rfl hgap
        exact html_skips_cons hopens hgap

/-! ### Block comments -/

theorem block_delimits :
    CommentStyle.block.Delimits (fun line => blocksFrom line .code) ['/', '*'] ['*', '/']
      cleanBlockLine where
  opening_ne_nil := List.cons_ne_nil _ _
  closing_ne_nil := List.cons_ne_nil _ _
  lineFeeds_opening := rfl
  lineFeeds_closing := rfl
  stands _ _ _ _ h := h
  nil _ := rfl
  closed body rest line h := by
    have hbody := blocksFrom_body h line line [] rest
    rw [List.append_nil, blockComment, List.reverse_reverse] at hbody
    rw [List.cons_append, List.singleton_append, blocksFrom_opening]
    exact hbody
  unclosed body line h := by
    have hbody := blocksFrom_body_unclosed h line line []
    rw [List.append_nil, blockComment, List.reverse_reverse] at hbody
    rw [List.cons_append, List.singleton_append, blocksFrom_opening]
    exact hbody

theorem block_step (before source : List Char) :
    CommentStyle.block.Step (fun line => blocksFrom line .code) (fun _ _ => True) before
      source := by
  by_cases hopens : ['/', '*'] <+: source
  · obtain ⟨inside, rfl⟩ := hopens
    exact block_delimits.step before inside
  · cases source with
    | nil => exact .stop fun _ => rfl
    | cons c s =>
        obtain ⟨piece, next, heq, hpassed⟩ := exists_passed c s hopens
        rw [heq]
        refine .pass hpassed.ne_nil ?_ trivial (blocksFrom_passed hpassed)
        rintro gap rest rfl hgap
        exact .cons hpassed hgap

/-! ### Shell comments -/

/-- A line starts here, unless the source is at its end. -/
def AtLine (before source : List Char) : Prop := source = [] ∨ Chars.StartsLine before

theorem shell_skips_append {gap next indent : List Char} (hgap : CommentStyle.shell.Skips gap next)
    (hstart : Chars.StartsLine gap) (hindent : ∀ c ∈ indent, Chars.isBlank c = true ∧ c ≠ '\n') :
    CommentStyle.shell.Skips (gap ++ indent) next := by
  have hfeed : '\n' ∉ indent := fun hmem => (hindent _ hmem).2 rfl
  intro line hline
  rw [Chars.lines_append (Or.inr hstart), List.mem_append, Chars.lines_of_notMem hfeed] at hline
  rcases hline with hline | hline
  · exact hgap line hline
  · split_ifs at hline
    · exact nomatch hline
    · obtain rfl := List.mem_singleton.mp hline
      exact shellLine?_of_forall fun c hc => (hindent c hc).1

/-- A run behind a gap of whole lines is taken from its first number sign on; the blanks in front of
the sign belong to the gap. -/
theorem shell_take {before gap run rest : List Char} {pieces : List (List Char)}
    (hbefore : Chars.StartsLine before) (hgap : ∀ line ∈ Chars.lines gap, shellLine? line = none)
    (hstart : Chars.StartsLine gap) (hrun : (Chars.lines run).map shellLine? = pieces.map some)
    (hne : run ≠ []) (hends : rest = [] ∨ Chars.StartsLine run)
    (hrest : ∀ line ∈ (Chars.lines rest).head?, shellLine? line = none) :
    CommentStyle.shell.Step (fun line s => shellRuns line none (Chars.lines s)) AtLine before
      (gap ++ (run ++ rest)) := by
  have hscan := shellRuns_append_run hgap hstart hrun hne hends hrest
  obtain ⟨indent, text, rfl, hsign, hindent, htext⟩ := exists_number_sign hne hrun
  have hfeeds : lineFeeds indent = 0 := lineFeeds_of_notMem fun hmem => (hindent _ hmem).2 rfl
  have hstarts := hbefore.append hstart
  rw [List.append_assoc indent, ← List.append_assoc gap] at hscan ⊢
  refine .take ?_ (shell_skips_append hgap hstart hindent)
    ⟨hsign, ?_, ⟨pieces, htext, rfl⟩, hends.imp_right .of_append, hrest⟩ ?_ fun line => ?_
  · rintro rfl
    exact nomatch hsign
  · exact ⟨before ++ gap, indent, (List.append_assoc _ _ _).symm, hstarts, hindent⟩
  · refine hends.imp_right fun hrun => ?_
    have hall := hstarts.append hrun
    rwa [List.append_assoc, ← List.append_assoc gap, ← List.append_assoc] at hall
  · rw [hscan, lineFeeds_append, lineFeeds_append, hfeeds, Nat.add_zero, Nat.zero_add]

theorem shell_step {before source : List Char} (h : AtLine before source) :
    CommentStyle.shell.Step (fun line s => shellRuns line none (Chars.lines s)) AtLine before
      source := by
  obtain ⟨gap, rest, rfl, hends, hgap, hfirst⟩ :=
    Chars.exists_lines_split (fun line => (shellLine? line).isNone) source
  have hskips : ∀ line ∈ Chars.lines gap, shellLine? line = none := by simpa using hgap
  by_cases hrest : rest = []
  · subst hrest
    by_cases hempty : gap = []
    · subst hempty
      exact .stop fun _ => rfl
    · refine .pass hempty ?_ (Or.inl rfl) fun line => ?_
      · rintro inner rest hnil -
        obtain ⟨rfl, rfl⟩ := List.append_eq_nil_iff.mp hnil.symm
        rwa [List.append_nil]
      · have hall := shellRuns_skip hskips line []
        rwa [List.append_nil] at hall ⊢
  · have hbefore : Chars.StartsLine before :=
      h.resolve_left fun hnil => hrest (List.append_eq_nil_iff.mp hnil).2
    obtain ⟨run, rest, rfl, hends', hrun, hlast⟩ :=
      Chars.exists_lines_split (fun line => (shellLine? line).isSome) rest
    have hne : run ≠ [] := by
      rintro rfl
      obtain ⟨line, lines, hlines⟩ :=
        List.exists_cons_of_ne_nil (mt Chars.lines_eq_nil_iff.mp hrest)
      rw [List.nil_append] at hlines hfirst
      have hnot := hfirst line (hlines ▸ rfl)
      rw [← Option.not_isSome, hlast line (hlines ▸ rfl)] at hnot
      exact Bool.noConfusion hnot
    obtain ⟨pieces, hpieces⟩ := forall_exists_iff_forall₂.mp fun line hline =>
      Option.isSome_iff_exists.mp (hrun line hline)
    rw [← List.forall₂_map_right_iff, ← List.forall₂_map_left_iff, List.forall₂_eq_eq_eq] at hpieces
    exact shell_take hbefore hskips (hends.resolve_left hrest) hpieces hne hends'
      (by simpa using hlast)

end Comment

/-- The comments of every source stand in it one behind the other, each on the line on which it
opens, whatever the source is like. -/
theorem CommentStyle.laid_extract (style : CommentStyle) (source : String) :
    style.Laid [] source.toList (style.extract source) := by
  cases style with
  | block => exact laid_of_step (fun before source _ => Comment.block_step before source) trivial
  | shell => exact laid_of_step (fun _ _ h => Comment.shell_step h) (Or.inr (Or.inl rfl))
  | html => exact laid_of_step (fun before source _ => Comment.html_step before source) trivial

/-- Comments that are not closed, and a literal that ends with its line behind a backslash. -/
example :
    CommentStyle.block.extract "x = '\\\n/* a\r\n*/ \"/*\n /* b" = [⟨2, "a"⟩, ⟨4, "b"⟩] := by
  decide

end TestSelection
