import Mathlib.Logic.Relation
import TestSelection.Group.Basic
import TestSelection.Proofs.Table

/-!
References between groups. A group refers to the groups that its entries name, defined or not; the
search for circles follows the references to defined groups only, which makes no difference, since
every group on a circle refers to something. The search widens a set of names until its size stays
the same, and then the set is closed: it holds all that is reached from where the search started.
-/

namespace TestSelection

open Relation

namespace Groups

variable {gs : Groups}

def Refers (gs : Groups) (a b : String) : Prop :=
  ∃ g, gs.get? a = some g ∧ b ∈ g.references

/-- A group has an entry for a defined one. -/
def RefersDefined (gs : Groups) (a b : String) : Prop :=
  gs.Refers a b ∧ gs.contains b = true

theorem Refers.contains {a b : String} (h : gs.Refers a b) : gs.contains a = true := by
  obtain ⟨g, hg, -⟩ := h
  exact Table.contains_iff.mpr ⟨g, hg⟩

theorem mem_defined {g : Group} {name : String} :
    name ∈ gs.defined g ↔ name ∈ g.references ∧ gs.contains name = true :=
  List.mem_filter

theorem refersDefined_iff {a b : String} {g : Group} (hg : gs.get? a = some g) :
    gs.RefersDefined a b ↔ b ∈ gs.defined g := by
  rw [mem_defined]
  constructor
  · rintro ⟨⟨g', hg', hb⟩, hdefined⟩
    obtain rfl := Option.some.inj (hg.symm.trans hg')
    exact ⟨hb, hdefined⟩
  · rintro ⟨hb, hdefined⟩
    exact ⟨⟨g, hg, hb⟩, hdefined⟩

/-- A circle leads through defined groups only. -/
theorem transGen_refersDefined {a b : String} (h : TransGen gs.Refers a b)
    (hb : gs.contains b = true) : TransGen gs.RefersDefined a b := by
  induction h with
  | single h => exact .single ⟨h, hb⟩
  | tail _ h ih => exact .tail (ih h.contains) ⟨h, hb⟩

theorem transGen_self_iff {a : String} :
    TransGen gs.RefersDefined a a ↔ TransGen gs.Refers a a := by
  constructor
  · have hle : gs.RefersDefined ≤ gs.Refers := fun _ _ h => h.1
    exact TransGen.mono hle a a
  · intro h
    obtain ⟨b, hab, -⟩ := TransGen.head'_iff.mp h
    exact transGen_refersDefined h hab.contains

/-! ### Widening -/

theorem contains_foldl_widen (names : List String) (s : NameSet) (b : String) :
    (names.foldl (fun s name =>
      match gs.get? name with
      | some g => (gs.defined g).foldl NameSet.add s
      | none => s) s).contains b = true ↔
      s.contains b = true ∨ ∃ a ∈ names, gs.RefersDefined a b := by
  induction names generalizing s with
  | nil => simp
  | cons head rest ih =>
      rw [List.foldl_cons, ih]
      cases hg : gs.get? head with
      | none =>
          have hnone : ¬ gs.RefersDefined head b := by
            rintro ⟨⟨g, hg', -⟩, -⟩
            exact absurd (hg.symm.trans hg') (Option.some_ne_none g).symm
          simp [hnone]
      | some g =>
          simp only [NameSet.contains_foldl_add, List.mem_cons, exists_eq_or_imp,
            refersDefined_iff hg]
          tauto

theorem contains_widen {s : NameSet} {b : String} :
    (gs.widen s).contains b = true ↔
      s.contains b = true ∨ ∃ a, s.contains a = true ∧ gs.RefersDefined a b := by
  refine (contains_foldl_widen s.names s b).trans ?_
  simp only [Table.mem_names_iff]

theorem subset_widen (s : NameSet) : s.toFinset ⊆ (gs.widen s).toFinset := by
  intro name h
  rw [NameSet.mem_toFinset] at h ⊢
  exact contains_widen.mpr (Or.inl h)

theorem size_le_widen (s : NameSet) : s.size ≤ (gs.widen s).size := by
  rw [← NameSet.card_toFinset, ← NameSet.card_toFinset]
  exact Finset.card_le_card (subset_widen s)

/-- Nothing is left out that a member of the set refers to. -/
def Closed (gs : Groups) (s : NameSet) : Prop :=
  ∀ a b, s.contains a = true → gs.RefersDefined a b → s.contains b = true

theorem closed_of_size_widen {s : NameSet} (h : (gs.widen s).size = s.size) : gs.Closed s := by
  have heq : s.toFinset = (gs.widen s).toFinset := by
    apply Finset.eq_of_subset_of_card_le (subset_widen s)
    rw [NameSet.card_toFinset, NameSet.card_toFinset, h]
  intro a b ha hab
  rw [← NameSet.mem_toFinset, heq, NameSet.mem_toFinset]
  exact contains_widen.mpr (Or.inr ⟨a, ha, hab⟩)

/-- Only names of groups are in the set. -/
def Within (gs : Groups) (s : NameSet) : Prop := ∀ a, s.contains a = true → gs.contains a = true

theorem Within.widen {s : NameSet} (h : gs.Within s) : gs.Within (gs.widen s) := by
  intro b hb
  rcases contains_widen.mp hb with hb | ⟨a, -, -, hb⟩
  · exact h b hb
  · exact hb

theorem Within.toFinset_subset {s : NameSet} (h : gs.Within s) :
    s.toFinset ⊆ gs.names.toFinset := by
  intro a ha
  rw [List.mem_toFinset, Table.mem_names_iff]
  exact h a (NameSet.mem_toFinset.mp ha)

theorem card_names (gs : Groups) : gs.names.toFinset.card = gs.size := by
  rw [List.toFinset_card_of_nodup gs.nodup_names, Table.length_names]

theorem Within.size_le {s : NameSet} (h : gs.Within s) : s.size ≤ gs.size := by
  rw [← NameSet.card_toFinset, ← card_names gs]
  exact Finset.card_le_card h.toFinset_subset

/-- Each turn adds a name or is the last one, and there are no more names than groups. -/
theorem closed_close {turns : Nat} {s : NameSet} (hs : gs.Within s)
    (hturns : gs.size ≤ turns + s.size) : gs.Closed (gs.close turns s) := by
  induction turns generalizing s with
  | zero =>
      change gs.Closed s
      refine closed_of_size_widen (le_antisymm ?_ (size_le_widen s))
      exact hs.widen.size_le.trans (by simpa using hturns)
  | succ turns ih =>
      rw [close]
      split
      · rename_i h
        exact closed_of_size_widen h
      · rename_i h
        have hle := @size_le_widen gs s
        exact ih hs.widen (by omega)

theorem contains_close_of_contains {turns : Nat} {s : NameSet} {a : String}
    (h : s.contains a = true) : (gs.close turns s).contains a = true := by
  induction turns generalizing s with
  | zero => exact h
  | succ turns ih =>
      rw [close]
      split
      · exact h
      · exact ih (contains_widen.mpr (Or.inl h))

theorem exists_of_contains_close {turns : Nat} {s : NameSet} {b : String}
    (h : (gs.close turns s).contains b = true) :
    ∃ a, s.contains a = true ∧ ReflTransGen gs.RefersDefined a b := by
  induction turns generalizing s with
  | zero => exact ⟨b, h, .refl⟩
  | succ turns ih =>
      rw [close] at h
      split at h
      · exact ⟨b, h, .refl⟩
      · obtain ⟨a, ha, hab⟩ := ih h
        rcases contains_widen.mp ha with ha | ⟨a', ha', hstep⟩
        · exact ⟨a, ha, hab⟩
        · exact ⟨a', ha', hab.head hstep⟩

theorem contains_close {s : NameSet} {b : String} (hs : gs.Within s) :
    (gs.close gs.size s).contains b = true ↔
      ∃ a, s.contains a = true ∧ ReflTransGen gs.RefersDefined a b := by
  constructor
  · exact exists_of_contains_close
  · rintro ⟨a, ha, hab⟩
    induction hab with
    | refl => exact contains_close_of_contains ha
    | tail _ hstep ih => exact closed_close hs (Nat.le_add_right _ _) _ _ ih hstep

/-- What a group leads to by one or more references. -/
theorem contains_reached {a b : String} {g : Group} (hg : gs.get? a = some g) :
    (gs.reached g).contains b = true ↔ TransGen gs.RefersDefined a b := by
  have hwithin : gs.Within (NameSet.ofNames (gs.defined g)) := fun c hc =>
    (mem_defined.mp (NameSet.contains_ofNames.mp hc)).2
  rw [reached, contains_close hwithin, TransGen.head'_iff]
  simp only [NameSet.contains_ofNames, refersDefined_iff hg]

end Groups

end TestSelection
