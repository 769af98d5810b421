import TestSelection.Proofs.Group.Reference

/-!
Marking only adds problems. After it a group is valid exactly if all groups that it leads to were
valid when it began and none of the references on the way goes to a group without entries. One
direction is an invariant of the turns: groups for which this holds are never blamed. The other one
needs the last turn, in which nobody is blamed; it comes, because every other turn makes a group
invalid.
-/

namespace TestSelection

open Relation

namespace Group

def blameAll (g : Group) (problems : List GroupProblem) : Group :=
  { g with problems := g.problems ++ problems }

theorem isValid_iff {g : Group} : g.isValid = true ↔ g.problems = [] := List.isEmpty_iff

theorem isValid_blameAll {g : Group} {problems : List GroupProblem} :
    (g.blameAll problems).isValid = true ↔ g.isValid = true ∧ problems = [] := by
  rw [isValid_iff, isValid_iff]
  exact List.append_eq_nil_iff

end Group

namespace Groups

/-- The same groups, each with the problems that it had and perhaps more. -/
def Extends (gs gs' : Groups) : Prop :=
  ∃ more : String → Group → List GroupProblem,
    ∀ name, gs'.get? name = (gs.get? name).map fun g => g.blameAll (more name g)

/-- The name of a group that nothing is wrong with. -/
def Valid (gs : Groups) (name : String) : Prop := ∃ g, gs.get? name = some g ∧ g.isValid = true

instance (gs : Groups) : DecidablePred gs.Valid := fun name =>
  decidable_of_iff ((gs.get? name).any Group.isValid = true) (Option.any_eq_true ..)

/-- The name of a group with an entry. -/
def HasEntry (gs : Groups) (name : String) : Prop := ∃ g, gs.get? name = some g ∧ g.entries ≠ []

variable {gs gs' gs'' : Groups}

theorem Extends.refl (gs : Groups) : gs.Extends gs :=
  ⟨fun _ _ => [], fun name => by cases gs.get? name <;> simp [Group.blameAll]⟩

theorem Extends.trans (h : gs.Extends gs') (h' : gs'.Extends gs'') : gs.Extends gs'' := by
  obtain ⟨more, hmore⟩ := h
  obtain ⟨more', hmore'⟩ := h'
  refine ⟨fun name g => more name g ++ more' name (g.blameAll (more name g)), fun name => ?_⟩
  rw [hmore', hmore]
  cases gs.get? name <;> simp [Group.blameAll]

/-- What a marked group was before, and what an unmarked one becomes, differ by problems alone. -/
theorem Extends.exists_iff (h : gs.Extends gs') {p : Group → Prop} {name : String}
    (hp : ∀ g problems, p (g.blameAll problems) ↔ p g) :
    (∃ g, gs'.get? name = some g ∧ p g) ↔ ∃ g, gs.get? name = some g ∧ p g := by
  obtain ⟨more, hmore⟩ := h
  rw [hmore]
  cases gs.get? name <;> simp [hp]

theorem Extends.refers (h : gs.Extends gs') : gs'.Refers = gs.Refers := by
  funext a b
  exact propext (h.exists_iff fun _ _ => Iff.rfl)

theorem Extends.hasEntry (h : gs.Extends gs') : gs'.HasEntry = gs.HasEntry := by
  funext name
  exact propext (h.exists_iff fun _ _ => Iff.rfl)

theorem Extends.contains (h : gs.Extends gs') (name : String) :
    gs'.contains name = gs.contains name := by
  rw [Bool.eq_iff_iff, Table.contains_iff, Table.contains_iff]
  simpa using h.exists_iff (p := fun _ => True) fun _ _ => Iff.rfl

theorem Extends.valid (h : gs.Extends gs') {name : String} (hvalid : gs'.Valid name) :
    gs.Valid name := by
  obtain ⟨more, hmore⟩ := h
  obtain ⟨g', hg', hvalid⟩ := hvalid
  rw [hmore] at hg'
  obtain ⟨g, hg, rfl⟩ := Option.map_eq_some_iff.mp hg'
  exact ⟨g, hg, (Group.isValid_blameAll.mp hvalid).1⟩

theorem Valid.contains {name : String} (h : gs.Valid name) : gs.contains name = true := by
  obtain ⟨g, hg, -⟩ := h
  exact Table.contains_iff.mpr ⟨g, hg⟩

/-! ### Circles -/

theorem circleOf_map_reached {name : String} {g : Group} (hg : gs.get? name = some g) :
    circleOf (Table.map gs.reached gs) name = [] ↔ ¬ TransGen gs.Refers name name := by
  rw [← transGen_self_iff, ← contains_reached hg, circleOf, Table.get?_map, hg]
  dsimp only [Option.map_some]
  by_cases h : (gs.reached g).contains name = true
  · rw [if_pos h]
    refine iff_of_false (@List.ne_nil_of_mem _ name _ (List.mem_filter.mpr ?_)) (not_not.mpr h)
    rw [Table.get?_map, hg]
    exact ⟨Table.mem_names_iff.mpr h, h⟩
  · rw [if_neg h]
    exact iff_of_true rfl h

/-- A group is blamed for the circle that it stands on. -/
def circleProblems (gs : Groups) (name : String) : List GroupProblem :=
  match circleOf (Table.map gs.reached gs) name with
  | [] => []
  | members => [.cycle members]

theorem circleProblems_eq_nil {name : String} :
    gs.circleProblems name = [] ↔ circleOf (Table.map gs.reached gs) name = [] := by
  rw [circleProblems]
  split
  · rename_i h
    exact iff_of_true rfl h
  · rename_i h
    exact iff_of_false (List.cons_ne_nil _ _) h

theorem get?_markCycles (gs : Groups) (name : String) :
    gs.markCycles.get? name = (gs.get? name).map fun g => g.blameAll (gs.circleProblems name) := by
  have hcycles : gs.markCycles =
      Table.ofList (gs.entries.map fun e => (e.1, e.2.blameAll (gs.circleProblems e.1))) := by
    apply congrArg Table.ofList
    apply List.map_congr_left
    rintro ⟨name, g⟩ -
    dsimp only [circleProblems]
    split <;> simp [Group.blame, Group.blameAll, *]
  rw [hcycles, Table.get?_ofList]
  · exact Table.find?_map (fun name g => g.blameAll (gs.circleProblems name)) name gs.entries
  · rw [List.map_map]
    exact gs.nodup_names

theorem extends_markCycles (gs : Groups) : gs.Extends gs.markCycles :=
  ⟨fun name _ => gs.circleProblems name, get?_markCycles gs⟩

theorem valid_markCycles {name : String} :
    gs.markCycles.Valid name ↔ gs.Valid name ∧ ¬ TransGen gs.Refers name name := by
  simp only [Valid, get?_markCycles]
  cases hg : gs.get? name with
  | none => simp
  | some g =>
      simp [Group.isValid_blameAll, circleProblems_eq_nil, circleOf_map_reached hg]

/-! ### Turns -/

/-- All groups that a group leads to, itself included, are valid, and its references and theirs go
to groups with entries. -/
def Sustained (gs : Groups) (name : String) : Prop :=
  ∀ a, ReflTransGen gs.Refers name a → gs.Valid a ∧ ∀ b, gs.Refers a b → gs.HasEntry b

theorem Sustained.valid {name : String} (h : gs.Sustained name) : gs.Valid name :=
  (h name .refl).1

theorem isUsable_iff {name : String} :
    gs.isUsable name = true ↔ gs.Valid name ∧ gs.HasEntry name := by
  rw [isUsable, Valid, HasEntry]
  cases gs.get? name <;> simp

theorem mem_badReferences {g : Group} {name : String} :
    name ∈ gs.badReferences g ↔
      g.isValid = true ∧ name ∈ g.references ∧ ¬ (gs.Valid name ∧ gs.HasEntry name) := by
  rw [badReferences, ← isUsable_iff]
  split <;> simp [*]

theorem blameReferences_eq (gs : Groups) (g : Group) :
    gs.blameReferences g = g.blameAll ((gs.badReferences g).map .badReference) := rfl

theorem extends_map_blameReferences (gs : Groups) :
    gs.Extends (Table.map gs.blameReferences gs) :=
  ⟨fun _ g => (gs.badReferences g).map .badReference, Table.get?_map gs.blameReferences gs⟩

theorem valid_map_blameReferences {name : String} :
    Groups.Valid (Table.map gs.blameReferences gs) name ↔
      gs.Valid name ∧ ∀ g, gs.get? name = some g → gs.badReferences g = [] := by
  simp only [Valid, Table.get?_map]
  cases gs.get? name <;> simp [blameReferences_eq, Group.isValid_blameAll]

/-- Who is sustained is not blamed. -/
theorem Sustained.map_blameReferences {name : String} (h : gs.Sustained name) :
    Groups.Sustained (Table.map gs.blameReferences gs) name := by
  have hext := extends_map_blameReferences gs
  intro a ha
  rw [hext.refers] at ha
  rw [hext.refers, hext.hasEntry]
  obtain ⟨hvalid, hentries⟩ := h a ha
  refine ⟨valid_map_blameReferences.mpr ⟨hvalid, fun g hg => ?_⟩, hentries⟩
  refine List.eq_nil_iff_forall_not_mem.mpr fun b hb => ?_
  obtain ⟨-, hb, hbad⟩ := mem_badReferences.mp hb
  have hab : gs.Refers a b := ⟨g, hg, hb⟩
  exact hbad ⟨(h b (ha.tail hab)).1, hentries b hab⟩

theorem Sustained.markReferences {turns : Nat} {name : String} (h : gs.Sustained name) :
    Groups.Sustained (gs.markReferences turns) name := by
  induction turns generalizing gs with
  | zero => exact h
  | succ turns ih =>
      rw [Groups.markReferences]
      split
      · exact h
      · exact ih h.map_blameReferences

theorem extends_markReferences (turns : Nat) (gs : Groups) :
    gs.Extends (gs.markReferences turns) := by
  induction turns generalizing gs with
  | zero => exact Extends.refl gs
  | succ turns ih =>
      rw [markReferences]
      split
      · exact Extends.refl gs
      · exact (extends_map_blameReferences gs).trans (ih _)

def validNames (gs : Groups) : Finset String := gs.names.toFinset.filter gs.Valid

theorem mem_validNames {name : String} : name ∈ gs.validNames ↔ gs.Valid name := by
  simp only [validNames, Finset.mem_filter, List.mem_toFinset, Table.mem_names_iff]
  exact and_iff_right_of_imp Valid.contains

theorem card_validNames_le (gs : Groups) : gs.validNames.card ≤ gs.size :=
  (Finset.card_filter_le _ _).trans_eq (card_names gs)

/-- Nobody is to be blamed. -/
def Settled (gs : Groups) : Prop := ∀ name g, gs.get? name = some g → gs.badReferences g = []

theorem settled_iff :
    gs.Settled ↔ (gs.entries.all fun (_, g) => gs.badReferences g == []) = true := by
  simp only [Settled, ← Table.mem_entries_iff, List.all_eq_true, beq_iff_eq, Prod.forall]

theorem card_validNames_lt (h : ¬ gs.Settled) :
    (Groups.validNames (Table.map gs.blameReferences gs)).card < gs.validNames.card := by
  simp only [Settled, not_forall] at h
  obtain ⟨name, g, hg, hbad⟩ := h
  obtain ⟨b, hb⟩ := List.exists_mem_of_ne_nil _ hbad
  have hvalid : gs.Valid name := ⟨g, hg, (mem_badReferences.mp hb).1⟩
  apply Finset.card_lt_card
  refine ⟨fun a ha => ?_, fun hsub => ?_⟩
  · exact mem_validNames.mpr (valid_map_blameReferences.mp (mem_validNames.mp ha)).1
  · have hmarked := mem_validNames.mp (hsub (mem_validNames.mpr hvalid))
    exact hbad ((valid_map_blameReferences.mp hmarked).2 g hg)

theorem settled_markReferences {turns : Nat} (h : gs.validNames.card ≤ turns) :
    (gs.markReferences turns).Settled := by
  induction turns generalizing gs with
  | zero =>
      change gs.Settled
      by_contra hsettled
      exact absurd (card_validNames_lt hsettled) (by omega)
  | succ turns ih =>
      rw [markReferences]
      split
      · rename_i hall
        exact settled_iff.mpr hall
      · rename_i hall
        have hlt := card_validNames_lt (settled_iff.not.mpr hall)
        exact ih (by omega)

/-- In the end validity goes along with references. -/
theorem Settled.sustained (h : gs.Settled) {name : String} (hvalid : gs.Valid name) :
    gs.Sustained name := by
  have hstep : ∀ {a b}, gs.Valid a → gs.Refers a b → gs.Valid b ∧ gs.HasEntry b := by
    rintro a b ⟨g', hg', hvalid⟩ ⟨g, hg, hb⟩
    obtain rfl := Option.some.inj (hg.symm.trans hg')
    by_contra hbad
    have hmem := mem_badReferences.mpr ⟨hvalid, hb, hbad⟩
    exact List.ne_nil_of_mem hmem (h a g hg)
  intro a ha
  have hvalid' : gs.Valid a := by
    induction ha with
    | refl => exact hvalid
    | tail _ hbc ih => exact (hstep ih hbc).1
  exact ⟨hvalid', fun b hb => (hstep hvalid' hb).2⟩

theorem valid_markReferences {turns : Nat} (hturns : gs.size ≤ turns) {name : String} :
    (gs.markReferences turns).Valid name ↔ gs.Sustained name := by
  have hext := extends_markReferences turns gs
  constructor
  · intro hvalid
    have hsettled := settled_markReferences ((card_validNames_le gs).trans hturns)
    intro a ha
    have hsustained := hsettled.sustained hvalid a (hext.refers ▸ ha)
    rw [hext.refers, hext.hasEntry] at hsustained
    exact ⟨hext.valid hsustained.1, hsustained.2⟩
  · exact fun h => h.markReferences.valid

/-! ### Marked groups -/

theorem size_markCycles_le (gs : Groups) : gs.markCycles.size ≤ gs.size := by
  rw [← card_names, ← card_names]
  apply Finset.card_le_card
  intro name h
  rw [List.mem_toFinset, Table.mem_names_iff] at h ⊢
  rwa [← (extends_markCycles gs).contains]

theorem extends_marked (gs : Groups) : gs.Extends gs.marked :=
  (extends_markCycles gs).trans (extends_markReferences _ _)

theorem valid_marked {name : String} :
    gs.marked.Valid name ↔ ∀ a, ReflTransGen gs.Refers name a →
      (gs.Valid a ∧ ¬ TransGen gs.Refers a a) ∧ ∀ b, gs.Refers a b → gs.HasEntry b := by
  have hext := extends_markCycles gs
  rw [marked, valid_markReferences (size_markCycles_le gs), Sustained]
  simp only [hext.refers, hext.hasEntry, valid_markCycles]

end Groups

end TestSelection
