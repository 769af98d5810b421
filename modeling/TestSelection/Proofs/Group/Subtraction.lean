import TestSelection.Proofs.FileTree
import TestSelection.Proofs.Group.PathSet

/-!
What remains of a path when others are taken away. Opening folders goes down, and what is within two
paths puts them on one line: so nothing has to be opened unless something inside is taken away, and
nothing else is lost when it is opened. The depth never runs out, since the path of a folder that
can be opened has a bounded length and every entry has a longer one.
-/

namespace TestSelection

open TestSelection.Path

namespace PathRules

variable {r : PathRules} {tree : FileTree} {excluded : List Path} {p q f : Path}

/-- A file is reached from its own path, and from the path of a folder through an entry that
counts. -/
inductive Reaches (r : PathRules) (tree : FileTree) : Path → Path → Prop
  | file {p f : Path} (hfile : tree.hasFolder p = false) (hsame : p.same f = true) :
      Reaches r tree p f
  | child {p q f : Path} (hfolder : tree.hasFolder p = true) (hq : q ∈ tree.children p)
      (hadmits : r.admits tree q = true) (h : Reaches r tree q f) : Reaches r tree p f

theorem Reaches.isWithin (htree : tree.Proper) (h : r.Reaches tree p f) : f.isWithin p = true := by
  induction h with
  | file _ hsame => exact isWithin_of_parts_eq (same_iff.mp hsame).symm
  | child _ hq _ _ ih =>
      have hbelow := htree.isBelow_of_mem_children hq
      exact isWithin_trans ih (isWithin_of_isBelow hbelow)

theorem reaches_iff_of_folder (hfolder : tree.hasFolder p = true) :
    r.Reaches tree p f ↔
      ∃ q ∈ (tree.children p).filter (r.admits tree), r.Reaches tree q f := by
  simp only [List.mem_filter, and_assoc]
  constructor
  · rintro (⟨hfile, -⟩ | ⟨-, hq, hadmits, h⟩)
    · exact absurd hfile (by simp [hfolder])
    · exact ⟨_, hq, hadmits, h⟩
  · rintro ⟨q, hq, hadmits, h⟩
    exact .child hfolder hq hadmits h

theorem isWithin_of_mem_remaining (htree : tree.Proper) {depth : Nat}
    (hq : q ∈ r.remaining tree excluded depth p) : q.isWithin p = true := by
  fun_induction remaining r tree excluded depth p with
  | case1 | case3 => exact nomatch hq
  | case2 | case5 =>
      obtain rfl := List.mem_singleton.mp hq
      exact isWithin_refl q
  | case4 depth p hwithin hopen ih =>
      obtain ⟨child, hchild, hq⟩ := List.mem_flatMap.mp hq
      have hbelow := htree.isBelow_of_mem_children (List.mem_filter.mp hchild).1
      exact isWithin_trans (ih child hq) (isWithin_of_isBelow hbelow)

/-- What remains is the path itself or found by opening folders. -/
theorem mem_remaining_induction {motive : Path → Prop} {depth : Nat}
    (hchild : ∀ p q, motive p → q ∈ tree.children p → motive q) (hp : motive p)
    (hq : q ∈ r.remaining tree excluded depth p) : motive q := by
  fun_induction remaining r tree excluded depth p with
  | case1 | case3 => exact nomatch hq
  | case2 | case5 =>
      obtain rfl := List.mem_singleton.mp hq
      exact hp
  | case4 depth p hwithin hopen ih =>
      obtain ⟨child, hmem, hq⟩ := List.mem_flatMap.mp hq
      exact ih child (hchild p child hp (List.mem_filter.mp hmem).1) hq

/-- What is neither taken away nor opened remains. -/
theorem mem_remaining_self (hwithin : ¬ excluded.any p.isWithin = true)
    (hwhole : ¬ (excluded.any (·.isBelow p) && tree.hasFolder p) = true) (depth : Nat) :
    p ∈ r.remaining tree excluded depth p := by
  cases depth with
  | zero =>
      rw [remaining, if_neg hwithin]
      exact List.mem_singleton_self p
  | succ depth =>
      rw [remaining, if_neg hwithin, if_neg hwhole]
      exact List.mem_singleton_self p

theorem not_within_of_mem_remaining {depth : Nat}
    (hq : q ∈ r.remaining tree excluded depth p) : ¬ excluded.any q.isWithin = true := by
  fun_induction remaining r tree excluded depth p with
  | case1 | case3 => exact nomatch hq
  | case2 p hwithin | case5 depth p hwithin =>
      obtain rfl := List.mem_singleton.mp hq
      exact hwithin
  | case4 depth p hwithin hopen ih =>
      obtain ⟨child, hmem, hq⟩ := List.mem_flatMap.mp hq
      exact ih child hq

/-- What remains is not to be opened any more. -/
theorem not_opened_of_mem_remaining (htree : tree.Proper) {depth : Nat}
    (hdepth : FileTree.maxFollowedBytes < p.text.utf8ByteSize + depth)
    (hq : q ∈ r.remaining tree excluded depth p) :
    ¬ (excluded.any (·.isBelow q) && tree.hasFolder q) = true := by
  fun_induction remaining r tree excluded depth p with
  | case1 | case3 => exact nomatch hq
  | case2 p hwithin =>
      obtain rfl := List.mem_singleton.mp hq
      intro hopen
      have hsize := FileTree.size_le_of_hasFolder (Bool.and_eq_true_iff.mp hopen).2
      omega
  | case5 depth p hwithin hwhole =>
      obtain rfl := List.mem_singleton.mp hq
      exact hwhole
  | case4 depth p hwithin hopen ih =>
      obtain ⟨child, hmem, hq⟩ := List.mem_flatMap.mp hq
      have hsize := htree.size_lt_of_mem_children (List.mem_filter.mp hmem).1
      exact ih child (by omega) hq

theorem pairwise_apart_remaining (htree : tree.Proper) (depth : Nat) (p : Path) :
    (r.remaining tree excluded depth p).Pairwise Apart := by
  fun_induction remaining r tree excluded depth p with
  | case1 | case3 => exact List.Pairwise.nil
  | case2 | case5 => exact List.pairwise_singleton _ _
  | case4 depth p hwithin hopen ih =>
      refine List.pairwise_flatMap.mpr ⟨fun child _ => ih child, ?_⟩
      refine ((htree.pairwise_children p).filter _).imp fun hab x hx y hy => ?_
      have hxa := isWithin_of_mem_remaining htree hx
      have hyb := isWithin_of_mem_remaining htree hy
      exact hab.of_isWithin hxa hyb

/-- What is reached from a path that is not taken away is not taken away either, if the path is no
folder or nothing inside is taken away. -/
theorem Reaches.not_excluded (htree : tree.Proper) (h : r.Reaches tree p f)
    (hwithin : ¬ excluded.any p.isWithin = true)
    (hwhole : ¬ (excluded.any (·.isBelow p) && tree.hasFolder p) = true) :
    ∀ x ∈ excluded, ¬ f.isWithin x = true := by
  intro x hx hfx
  have hpx : ¬ p.isWithin x = true := fun hpx => hwithin (List.any_eq_true.mpr ⟨x, hx, hpx⟩)
  have hxp := (isWithin_or_isWithin (h.isWithin htree) hfx).resolve_right hpx
  have hbelow : excluded.any (·.isBelow p) = true :=
    List.any_eq_true.mpr ⟨x, hx, isBelow_of_isWithin hxp hpx⟩
  cases h with
  | file _ hsame => exact hpx ((isWithin_congr (same_iff.mp hsame)).trans hfx)
  | child hfolder => exact hwhole (Bool.and_eq_true_iff.mpr ⟨hbelow, hfolder⟩)

theorem exists_reaches_remaining (htree : tree.Proper) {depth : Nat}
    (hdepth : FileTree.maxFollowedBytes < p.text.utf8ByteSize + depth) :
    (∃ q ∈ r.remaining tree excluded depth p, r.Reaches tree q f) ↔
      r.Reaches tree p f ∧ ∀ x ∈ excluded, ¬ f.isWithin x = true := by
  fun_induction remaining r tree excluded depth p with
  | case1 p hwithin | case3 depth p hwithin =>
      obtain ⟨x, hx, hpx⟩ := List.any_eq_true.mp hwithin
      refine iff_of_false (fun h => nomatch h) fun ⟨h, hexcluded⟩ => hexcluded x hx ?_
      exact isWithin_trans (h.isWithin htree) hpx
  | case2 p hwithin =>
      have hwhole : ¬ (excluded.any (·.isBelow p) && tree.hasFolder p) = true := by
        intro hopen
        have hsize := FileTree.size_le_of_hasFolder (Bool.and_eq_true_iff.mp hopen).2
        omega
      simp only [List.mem_singleton, exists_eq_left]
      exact (and_iff_left_of_imp fun h => h.not_excluded htree hwithin hwhole).symm
  | case5 depth p hwithin hwhole =>
      simp only [List.mem_singleton, exists_eq_left]
      exact (and_iff_left_of_imp fun h => h.not_excluded htree hwithin hwhole).symm
  | case4 depth p hwithin hopen ih =>
      have hchild : ∀ q ∈ (tree.children p).filter (r.admits tree),
          ((∃ q' ∈ r.remaining tree excluded depth q, r.Reaches tree q' f) ↔
            r.Reaches tree q f ∧ ∀ x ∈ excluded, ¬ f.isWithin x = true) := by
        intro q hq
        have hsize := htree.size_lt_of_mem_children (List.mem_filter.mp hq).1
        exact ih q (by omega)
      rw [reaches_iff_of_folder (Bool.and_eq_true_iff.mp hopen).2]
      constructor
      · rintro ⟨q', hq', h⟩
        obtain ⟨q, hq, hq'⟩ := List.mem_flatMap.mp hq'
        obtain ⟨hreaches, hexcluded⟩ := (hchild q hq).mp ⟨q', hq', h⟩
        exact ⟨⟨q, hq, hreaches⟩, hexcluded⟩
      · rintro ⟨⟨q, hq, hreaches⟩, hexcluded⟩
        obtain ⟨q', hq', h⟩ := (hchild q hq).mpr ⟨hreaches, hexcluded⟩
        exact ⟨q', List.mem_flatMap.mpr ⟨q, hq, hq'⟩, h⟩

/-! ### Subtraction -/

theorem isWithin_of_mem_subtract (htree : tree.Proper) (hq : q ∈ r.subtract tree p excluded) :
    q.isWithin p = true :=
  isWithin_of_mem_remaining htree hq

theorem not_opened_of_mem_subtract (htree : tree.Proper) (hq : q ∈ r.subtract tree p excluded) :
    ¬ (excluded.any (·.isBelow q) && tree.hasFolder q) = true :=
  not_opened_of_mem_remaining htree (by omega) hq

theorem pairwise_apart_subtract (htree : tree.Proper) (p : Path) (excluded : List Path) :
    (r.subtract tree p excluded).Pairwise Apart :=
  pairwise_apart_remaining htree _ p

/-- What remains leads to everything that the path leads to and that is not taken away. -/
theorem exists_reaches_subtract (htree : tree.Proper) :
    (∃ q ∈ r.subtract tree p excluded, r.Reaches tree q f) ↔
      r.Reaches tree p f ∧ ∀ x ∈ excluded, ¬ f.isWithin x = true :=
  exists_reaches_remaining htree (by omega)

end PathRules

end TestSelection
