import Mathlib.Logic.Relation
import TestSelection.Proofs.Group.Subtraction

/-!
Folders are kept whole. When paths are taken away from another one, a folder is opened only if one of
them lies inside it. So what remains is described without the recursion: it is come to by opening
such folders, is not taken away itself, and is no folder that has to be opened further. The entries of
a folder lie apart in the order of their names, and everything that remains of them stands in the same
order.
-/

namespace TestSelection

open Relation TestSelection.Path

namespace PathRules

variable {r : PathRules} {tree : FileTree} {excluded : List Path} {p q : Path}

/-- The second path is an entry that counts of the folder of the first one, which is opened because
of something inside it that is taken away. -/
structure OpensTo (r : PathRules) (tree : FileTree) (excluded : List Path) (p q : Path) : Prop where
  mem_children : q ∈ tree.children p
  admits : r.admits tree q = true
  inside : ∃ x ∈ excluded, x.isBelow p = true

/-- The path is neither taken away nor opened. -/
structure Stays (tree : FileTree) (excluded : List Path) (p : Path) : Prop where
  outside : ∀ x ∈ excluded, ¬ p.isWithin x = true
  /-- A folder stands for all that is in it. -/
  whole : tree.hasFolder p = true → ∀ x ∈ excluded, ¬ x.isBelow p = true

/-- What is left over of a path when others are taken away. -/
structure IsRest (r : PathRules) (tree : FileTree) (p : Path) (excluded rest : List Path) :
    Prop where
  within : ∀ q ∈ rest, q.isWithin p = true
  stays : ∀ q ∈ rest, Stays tree excluded q
  /-- Nothing is opened without need. -/
  opened : ∀ q ∈ rest, q ≠ p → ∃ parent, parent.isWithin p = true ∧ q ∈ tree.children parent ∧
    ∃ x ∈ excluded, x.isBelow parent = true
  apart : rest.Pairwise Apart
  ordered : rest.Pairwise fun q q' => q.less q' = true
  reaches : ∀ f, (∃ q ∈ rest, r.Reaches tree q f) ↔
    r.Reaches tree p f ∧ ∀ x ∈ excluded, ¬ f.isWithin x = true

theorem hasFolder_of_mem_children (h : q ∈ tree.children p) : tree.hasFolder p = true := by
  obtain ⟨entries, hfind, -⟩ := FileTree.mem_children.mp h
  exact FileTree.hasFolder_iff.mpr ⟨entries, hfind⟩

theorem isWithin_of_opensTo (htree : tree.Proper)
    (h : ReflTransGen (r.OpensTo tree excluded) p q) : q.isWithin p = true := by
  induction h with
  | refl => exact isWithin_refl p
  | tail _ hstep ih =>
      have hbelow := htree.isBelow_of_mem_children hstep.mem_children
      exact isWithin_trans (isWithin_of_isBelow hbelow) ih

theorem stays_iff : Stays tree excluded p ↔ ¬ excluded.any p.isWithin = true ∧
    ¬ (excluded.any (·.isBelow p) && tree.hasFolder p) = true := by
  simp only [List.any_eq_true, Bool.and_eq_true, not_and, not_exists]
  constructor
  · rintro ⟨houtside, hwhole⟩
    exact ⟨houtside, fun ⟨x, hx, hbelow⟩ hfolder => hwhole hfolder x hx hbelow⟩
  · rintro ⟨houtside, hwhole⟩
    exact ⟨houtside, fun hfolder x hx hbelow => hwhole ⟨x, hx, hbelow⟩ hfolder⟩

/-- What stays is all that opening comes to. -/
theorem Stays.eq_iff (h : Stays tree excluded p) :
    q = p ↔ ReflTransGen (r.OpensTo tree excluded) p q ∧ Stays tree excluded q := by
  constructor
  · rintro rfl
    exact ⟨.refl, h⟩
  · rintro ⟨hopens, -⟩
    rcases hopens.cases_head with heq | ⟨child, hstep, -⟩
    · exact heq.symm
    · obtain ⟨x, hx, hbelow⟩ := hstep.inside
      exact absurd hbelow (h.whole (hasFolder_of_mem_children hstep.mem_children) x hx)

theorem mem_remaining_iff (htree : tree.Proper) {depth : Nat}
    (hdepth : FileTree.maxFollowedBytes < p.text.utf8ByteSize + depth) :
    q ∈ r.remaining tree excluded depth p ↔
      ReflTransGen (r.OpensTo tree excluded) p q ∧ Stays tree excluded q := by
  fun_induction remaining r tree excluded depth p with
  | case1 p hwithin | case3 depth p hwithin =>
      obtain ⟨x, hx, hpx⟩ := List.any_eq_true.mp hwithin
      refine iff_of_false List.not_mem_nil ?_
      rintro ⟨hopens, hstays⟩
      exact hstays.outside x hx (isWithin_trans (isWithin_of_opensTo htree hopens) hpx)
  | case2 p hwithin =>
      have hwhole : ¬ (excluded.any (·.isBelow p) && tree.hasFolder p) = true := by
        intro hopen
        have hsize := FileTree.size_le_of_hasFolder (Bool.and_eq_true_iff.mp hopen).2
        omega
      rw [List.mem_singleton]
      exact (stays_iff.mpr ⟨hwithin, hwhole⟩).eq_iff
  | case5 depth p hwithin hwhole =>
      rw [List.mem_singleton]
      exact (stays_iff.mpr ⟨hwithin, hwhole⟩).eq_iff
  | case4 depth p hwithin hopen ih =>
      have hchild : ∀ child ∈ tree.children p, (q ∈ r.remaining tree excluded depth child ↔
          ReflTransGen (r.OpensTo tree excluded) child q ∧ Stays tree excluded q) := by
        intro child hmem
        have hsize := htree.size_lt_of_mem_children hmem
        exact ih child (by omega)
      have hinside := List.any_eq_true.mp (Bool.and_eq_true_iff.mp hopen).1
      simp only [List.mem_flatMap, List.mem_filter]
      constructor
      · rintro ⟨child, ⟨hmem, hadmits⟩, hq⟩
        obtain ⟨hopens, hstays⟩ := (hchild child hmem).mp hq
        exact ⟨.head ⟨hmem, hadmits, hinside⟩ hopens, hstays⟩
      · rintro ⟨hopens, hstays⟩
        rcases hopens.cases_head with rfl | ⟨child, hstep, hopens⟩
        · exact absurd hopen (stays_iff.mp hstays).2
        · have hq := (hchild child hstep.mem_children).mpr ⟨hopens, hstays⟩
          exact ⟨child, ⟨hstep.mem_children, hstep.admits⟩, hq⟩

/-- What remains is what opening comes to, as far as it stays. -/
theorem mem_subtract_iff (htree : tree.Proper) :
    q ∈ r.subtract tree p excluded ↔
      ReflTransGen (r.OpensTo tree excluded) p q ∧ Stays tree excluded q :=
  mem_remaining_iff htree (by omega)

theorem ordered_remaining (htree : tree.Proper) (depth : Nat) (p : Path) :
    (r.remaining tree excluded depth p).Pairwise fun q q' => q.less q' = true := by
  fun_induction remaining r tree excluded depth p with
  | case1 | case3 => exact List.Pairwise.nil
  | case2 | case5 => exact List.pairwise_singleton _ _
  | case4 depth p hwithin hopen ih =>
      refine List.pairwise_flatMap.mpr ⟨fun child _ => ih child, ?_⟩
      refine ((htree.pairwise_children_lt p).filter _).imp fun {a b} hab x hx y hy => ?_
      obtain ⟨hapart, hlt⟩ := hab
      have hxa := isWithin_of_mem_remaining htree hx
      have hyb := isWithin_of_mem_remaining htree hy
      exact less_iff.mpr (hapart.parts_lt hlt hxa hyb)

/-- Taking paths away keeps folders whole as far as it can: what remains is not taken away and has
nothing in it that is, a folder is opened only because of something inside it, and what remains lies
apart, in order, and leads to all that is not taken away. -/
theorem isRest_subtract (htree : tree.Proper) (r : PathRules) (p : Path) (excluded : List Path) :
    r.IsRest tree p excluded (r.subtract tree p excluded) where
  within _ hq := isWithin_of_mem_subtract htree hq
  stays _ hq := ((mem_subtract_iff htree).mp hq).2
  opened q hq hne := by
    obtain ⟨hopens, -⟩ := (mem_subtract_iff htree).mp hq
    rcases hopens.cases_tail with heq | ⟨parent, hopens, hstep⟩
    · exact absurd heq hne
    · have hwithin := isWithin_of_opensTo htree hopens
      exact ⟨parent, hwithin, hstep.mem_children, hstep.inside⟩
  apart := pairwise_apart_subtract htree p excluded
  ordered := ordered_remaining htree _ p
  reaches _ := exists_reaches_subtract htree

/-- A folder `a` of which one folder is opened, one is kept whole and one is taken away. -/
def threeFolders : FileTree :=
  .folder [("a", .folder [
    ("b", .folder [("X.java", .file (.text "")), ("Y.java", .file (.text "")),
      ("Y.txt", .file (.text ""))]),
    ("c", .folder [("Z.java", .file (.text ""))]),
    ("d", .folder [("W.java", .file (.text ""))])])]

theorem isRest_threeFolders :
    let r := PathRules.new ["java"] []
    threeFolders.Proper ∧
      r.subtract threeFolders ⟨"/a"⟩ [⟨"/a/b//X.java"⟩, ⟨"/a/d/"⟩]
        = [⟨"/a/b/Y.java"⟩, ⟨"/a/c"⟩] ∧
      r.IsRest threeFolders ⟨"/a"⟩ [⟨"/a/b//X.java"⟩, ⟨"/a/d/"⟩] [⟨"/a/b/Y.java"⟩, ⟨"/a/c"⟩] := by
  intro r
  have hproper : threeFolders.Proper := FileTree.proper_of_isProper (by decide)
  have hrest : r.subtract threeFolders ⟨"/a"⟩ [⟨"/a/b//X.java"⟩, ⟨"/a/d/"⟩]
      = [⟨"/a/b/Y.java"⟩, ⟨"/a/c"⟩] := by decide +kernel
  have h := isRest_subtract hproper r ⟨"/a"⟩ [⟨"/a/b//X.java"⟩, ⟨"/a/d/"⟩]
  rw [hrest] at h
  exact ⟨hproper, hrest, h⟩

end PathRules

end TestSelection
