import Mathlib.Data.List.Induction
import Mathlib.Data.List.Pairwise
import TestSelection.Group.PathSet
import TestSelection.Proofs.Path

/-!
Sets of paths. An ordered set holds of equal paths the first one. A path set holds those among them
that are below no other path: a path that is added either lies within an entry, or it takes the
place of the entries within it.
-/

namespace TestSelection

namespace Path

variable {p q r : Path} {s paths : List Path}

/-- The paths stand in order, so that no two of them are equal. -/
def Ordered (s : List Path) : Prop := s.Pairwise fun p q => p.parts < q.parts

theorem mem_insertOrdered (hs : Ordered s) :
    q ∈ insertOrdered p s ↔ q ∈ s ∨ (q = p ∧ ∀ r ∈ s, p.parts ≠ r.parts) := by
  induction s with
  | nil => simp [insertOrdered]
  | cons x rest ih =>
      obtain ⟨hx, hrest⟩ := List.pairwise_cons.mp hs
      rw [insertOrdered]
      split
      · rename_i hless
        have hlt := less_iff.mp hless
        have hne : ∀ r ∈ x :: rest, p.parts ≠ r.parts := by
          intro r hr
          rcases List.mem_cons.mp hr with rfl | hr
          · exact hlt.ne
          · exact (hlt.trans (hx r hr)).ne
        rw [List.mem_cons, or_comm]
        exact or_congr_right (and_iff_left hne).symm
      · split
        · rename_i hsame
          have heq := same_iff.mp hsame
          exact (or_iff_left fun h => h.2 x List.mem_cons_self heq).symm
        · rename_i hsame
          have hne : p.parts ≠ x.parts := fun heq => hsame (same_iff.mpr heq)
          simp only [List.mem_cons, ih hrest, or_assoc]
          simp [hne]

theorem ordered_insertOrdered (hs : Ordered s) : Ordered (insertOrdered p s) := by
  induction s with
  | nil => exact List.pairwise_singleton _ _
  | cons x rest ih =>
      obtain ⟨hx, hrest⟩ := List.pairwise_cons.mp hs
      rw [insertOrdered]
      split
      · rename_i hless
        have hlt := less_iff.mp hless
        refine List.pairwise_cons.mpr ⟨fun r hr => ?_, hs⟩
        rcases List.mem_cons.mp hr with rfl | hr
        · exact hlt
        · exact hlt.trans (hx r hr)
      · split
        · exact hs
        · rename_i hless hsame
          have hle : x.parts ≤ p.parts := not_lt.mp fun h => hless (less_iff.mpr h)
          have hlt := hle.lt_of_ne' fun heq => hsame (same_iff.mpr heq)
          refine List.pairwise_cons.mpr ⟨fun r hr => ?_, ih hrest⟩
          rcases (mem_insertOrdered hrest).mp hr with hr | ⟨rfl, -⟩
          · exact hx r hr
          · exact hlt

/-! ### Ordered sets -/

/-- The path is the first one of those of the list that are equal to it. -/
def FirstIn (paths : List Path) (p : Path) : Prop := paths.find? p.same = some p

instance (paths : List Path) (p : Path) : Decidable (FirstIn paths p) :=
  inferInstanceAs (Decidable (_ = _))

theorem FirstIn.mem (h : FirstIn paths p) : p ∈ paths := List.mem_of_find?_eq_some h

theorem exists_firstIn (h : p ∈ paths) : ∃ q, FirstIn paths q ∧ q.parts = p.parts := by
  have hsome : (paths.find? p.same).isSome = true :=
    List.find?_isSome.mpr ⟨p, h, same_iff.mpr rfl⟩
  obtain ⟨q, hq⟩ := Option.isSome_iff_exists.mp hsome
  have heq := same_iff.mp (List.find?_some hq)
  have hsame : q.same = p.same := by
    funext r
    rw [same, same, heq]
  exact ⟨q, (congrArg (paths.find? ·) hsame).trans hq, heq.symm⟩

theorem firstIn_append_singleton :
    FirstIn (paths ++ [p]) q ↔ FirstIn paths q ∨ (q = p ∧ ∀ r ∈ paths, p.parts ≠ r.parts) := by
  have hlast : [p].find? q.same = some q ↔ q = p := by
    by_cases hsame : q.same p = true
    · simp [hsame, eq_comm]
    · have hne : q ≠ p := fun heq => hsame (same_iff.mpr (heq ▸ rfl))
      simp [hsame, hne]
  rw [FirstIn, List.find?_append, Option.or_eq_some_iff, hlast, List.find?_eq_none, and_comm]
  refine or_congr_right (and_congr_right fun heq => ?_)
  simp only [heq, same_iff, ne_eq]

theorem orderedSet_append_singleton (paths : List Path) (p : Path) :
    orderedSet (paths ++ [p]) = insertOrdered p (orderedSet paths) :=
  List.foldl_concat _ _ _ _

theorem ordered_orderedSet (paths : List Path) : Ordered (orderedSet paths) := by
  induction paths using List.reverseRecOn with
  | nil => exact List.Pairwise.nil
  | append_singleton paths p ih =>
      rw [orderedSet_append_singleton]
      exact ordered_insertOrdered ih

theorem mem_orderedSet : q ∈ orderedSet paths ↔ FirstIn paths q := by
  induction paths using List.reverseRecOn generalizing q with
  | nil => exact iff_of_false List.not_mem_nil (nomatch ·)
  | append_singleton paths p ih =>
      rw [orderedSet_append_singleton, mem_insertOrdered (ordered_orderedSet paths),
        firstIn_append_singleton, ih]
      refine or_congr_right (and_congr_right fun _ => ⟨fun h r hr => ?_, fun h r hr => ?_⟩)
      · obtain ⟨r', hfirst, heq⟩ := exists_firstIn hr
        exact heq ▸ h r' (ih.mpr hfirst)
      · exact h r (ih.mp hr).mem

/-- Paths that lie apart are all kept. -/
theorem mem_orderedSet_of_pairwise_apart (h : paths.Pairwise Apart) :
    q ∈ orderedSet paths ↔ q ∈ paths := by
  rw [mem_orderedSet]
  refine ⟨FirstIn.mem, fun hq => ?_⟩
  obtain ⟨q', hfirst, heq⟩ := exists_firstIn hq
  by_cases hne : q' = q
  · exact hne ▸ hfirst
  · have hapart := h.forall hfirst.mem hq hne
    exact absurd heq hapart.parts_ne

theorem pairwise_apart_orderedSet (h : paths.Pairwise Apart) :
    (orderedSet paths).Pairwise Apart := by
  refine (ordered_orderedSet paths).imp_of_mem fun {p q} hp hq hlt => ?_
  exact h.forall (mem_orderedSet.mp hp).mem (mem_orderedSet.mp hq).mem fun heq =>
    hlt.ne (congrArg parts heq)

/-- The path is the first one of those equal to it, and it is below no path of the list. -/
def Topmost (paths : List Path) (p : Path) : Prop :=
  FirstIn paths p ∧ ∀ q ∈ paths, ¬ p.isBelow q = true

instance (paths : List Path) (p : Path) : Decidable (Topmost paths p) :=
  inferInstanceAs (Decidable (_ ∧ _))

theorem topmost_of_apart (hp : p ∈ paths) (h : ∀ q ∈ paths, q = p ∨ p.Apart q) :
    Topmost paths p := by
  constructor
  · obtain ⟨q, hfirst, heq⟩ := exists_firstIn hp
    rcases h q hfirst.mem with rfl | hapart
    · exact hfirst
    · exact absurd heq.symm hapart.parts_ne
  · intro q hq hbelow
    rcases h q hq with rfl | hapart
    · exact not_isBelow_self q hbelow
    · exact hapart.1 (isWithin_of_isBelow hbelow)

theorem topmost_append_of_covered (h : ∃ e ∈ paths, p.isWithin e = true) :
    Topmost (paths ++ [p]) q ↔ Topmost paths q := by
  obtain ⟨e, he, hp⟩ := h
  simp only [Topmost, firstIn_append_singleton, List.forall_mem_append, List.forall_mem_singleton]
  constructor
  · rintro ⟨hfirst | ⟨rfl, hne⟩, hbelow, -⟩
    · exact ⟨hfirst, hbelow⟩
    · exact absurd (parts_eq_of_not_isBelow hp (hbelow e he)) (hne e he)
  · rintro ⟨hfirst, hbelow⟩
    exact ⟨Or.inl hfirst, hbelow, fun hq => hbelow e he (isBelow_trans_isWithin hq hp)⟩

theorem topmost_append_of_not_covered (h : ¬ ∃ e ∈ paths, p.isWithin e = true) :
    Topmost (paths ++ [p]) q ↔ (Topmost paths q ∧ ¬ q.isWithin p = true) ∨ q = p := by
  simp only [Topmost, firstIn_append_singleton, List.forall_mem_append, List.forall_mem_singleton]
  constructor
  · rintro ⟨hfirst | ⟨rfl, -⟩, hbelow, hq⟩
    · refine Or.inl ⟨⟨hfirst, hbelow⟩, fun hwithin => h ⟨q, hfirst.mem, ?_⟩⟩
      exact isWithin_of_parts_eq (parts_eq_of_not_isBelow hwithin hq).symm
    · exact Or.inr rfl
  · rintro (⟨⟨hfirst, hbelow⟩, hq⟩ | rfl)
    · exact ⟨Or.inl hfirst, hbelow, fun hq' => hq (isWithin_of_isBelow hq')⟩
    · refine ⟨Or.inr ⟨rfl, fun r hr heq => ?_⟩, fun r hr hq => ?_, not_isBelow_self q⟩
      · exact h ⟨r, hr, isWithin_of_parts_eq heq⟩
      · exact h ⟨r, hr, isWithin_of_isBelow hq⟩

end Path

namespace PathSet

open TestSelection.Path

variable {p q r : Path} {s : PathSet} {paths : List Path}

/-! ### Path sets -/

theorem add_of_covered (h : ∃ e ∈ s, p.isWithin e = true) : add s p = s :=
  if_pos (List.any_eq_true.mpr h)

theorem mem_add_of_not_covered (hs : Path.Ordered s) (h : ¬ ∃ e ∈ s, p.isWithin e = true) :
    q ∈ add s p ↔ (q ∈ s ∧ ¬ q.isWithin p = true) ∨ q = p := by
  rw [add, if_neg (List.any_eq_true.not.mpr h), mem_insertOrdered (hs.filter _), List.mem_filter,
    Bool.not_eq_true', ← Bool.not_eq_true]
  refine or_congr_right (and_iff_left fun e he heq => h ?_)
  exact ⟨e, (List.mem_filter.mp he).1, isWithin_of_parts_eq heq⟩

theorem ordered_add (hs : Path.Ordered s) : Path.Ordered (add s p) := by
  rw [add]
  split
  · exact hs
  · exact ordered_insertOrdered (hs.filter _)

theorem ofList_append_singleton (paths : List Path) (p : Path) :
    ofList (paths ++ [p]) = add (ofList paths) p :=
  List.foldl_concat _ _ _ _

theorem ordered_ofList (paths : List Path) : Path.Ordered (ofList paths) := by
  induction paths using List.reverseRecOn with
  | nil => exact List.Pairwise.nil
  | append_singleton paths p ih =>
      rw [ofList_append_singleton]
      exact ordered_add ih

/-- The set covers what the list covers. -/
theorem exists_mem_ofList_isWithin :
    (∃ e ∈ ofList paths, r.isWithin e = true) ↔ ∃ p ∈ paths, r.isWithin p = true := by
  induction paths using List.reverseRecOn with
  | nil => rfl
  | append_singleton paths p ih =>
      have hlast : (∃ e ∈ paths ++ [p], r.isWithin e = true) ↔
          (∃ e ∈ ofList paths, r.isWithin e = true) ∨ r.isWithin p = true := by
        rw [ih]
        simp [or_and_right, exists_or]
      rw [ofList_append_singleton, hlast]
      by_cases hcovered : ∃ e ∈ ofList paths, p.isWithin e = true
      · rw [add_of_covered hcovered, or_iff_left_of_imp]
        intro hr
        obtain ⟨e, he, hp⟩ := hcovered
        exact ⟨e, he, isWithin_trans hr hp⟩
      · simp only [mem_add_of_not_covered (ordered_ofList paths) hcovered]
        constructor
        · rintro ⟨e, ⟨he, -⟩ | rfl, hr⟩
          · exact Or.inl ⟨e, he, hr⟩
          · exact Or.inr hr
        · rintro (⟨e, he, hr⟩ | hr)
          · by_cases hep : e.isWithin p = true
            · exact ⟨p, Or.inr rfl, isWithin_trans hr hep⟩
            · exact ⟨e, Or.inl ⟨he, hep⟩, hr⟩
          · exact ⟨p, Or.inr rfl, hr⟩

/-- A path set holds the topmost paths of what was added. -/
theorem mem_ofList : q ∈ ofList paths ↔ Topmost paths q := by
  induction paths using List.reverseRecOn generalizing q with
  | nil => exact iff_of_false List.not_mem_nil fun h => nomatch h.1
  | append_singleton paths p ih =>
      rw [ofList_append_singleton]
      by_cases hcovered : ∃ e ∈ ofList paths, p.isWithin e = true
      · rw [add_of_covered hcovered, ih]
        exact (topmost_append_of_covered (exists_mem_ofList_isWithin.mp hcovered)).symm
      · rw [mem_add_of_not_covered (ordered_ofList paths) hcovered, ih]
        exact (topmost_append_of_not_covered (exists_mem_ofList_isWithin.not.mp hcovered)).symm

theorem pairwise_apart_ofList (paths : List Path) : (ofList paths).Pairwise Apart := by
  refine (ordered_ofList paths).imp_of_mem fun {p q} hp hq hlt => ?_
  obtain ⟨hpfirst, hpbelow⟩ := mem_ofList.mp hp
  obtain ⟨hqfirst, hqbelow⟩ := mem_ofList.mp hq
  refine ⟨fun hwithin => ?_, fun hwithin => ?_⟩
  · exact hpbelow q hqfirst.mem (isBelow_iff.mpr ⟨hwithin, hlt.ne⟩)
  · exact hqbelow p hpfirst.mem (isBelow_iff.mpr ⟨hwithin, hlt.ne'⟩)

/-- Lists that cover the same paths give sets with the same entries: an entry of the one is within an
entry of the other, which is within an entry of the one, and that is the entry itself. -/
theorem exists_mem_ofList_parts_eq {paths' : List Path}
    (h : ∀ r : Path, (∃ p ∈ paths, r.isWithin p = true) ↔ ∃ p ∈ paths', r.isWithin p = true)
    (hp : p ∈ ofList paths) : ∃ q ∈ ofList paths', q.parts = p.parts := by
  have hcovers : ∀ r : Path, (∃ e ∈ ofList paths, r.isWithin e = true) ↔
      ∃ e ∈ ofList paths', r.isWithin e = true := fun r => by
    rw [exists_mem_ofList_isWithin, exists_mem_ofList_isWithin, h r]
  obtain ⟨q, hq, hpq⟩ := (hcovers p).mp ⟨p, hp, isWithin_refl p⟩
  obtain ⟨e, he, hqe⟩ := (hcovers q).mpr ⟨q, hq, isWithin_refl q⟩
  have hsame : p = e := by
    by_contra hne
    have hapart : p.Apart e := (pairwise_apart_ofList paths).forall hp he hne
    exact hapart.1 (isWithin_trans hpq hqe)
  subst hsame
  exact ⟨q, hq, parts_eq_of_isWithin hqe hpq⟩

end PathSet

end TestSelection
