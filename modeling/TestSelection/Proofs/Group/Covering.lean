import TestSelection.Proofs.Group.SameParts

/-!
What path sets cover. However paths are added, a set holds those of them that are below no
other one. They lie apart and cover all that was added, and two sets differ only if they cover
different paths, so that neither the order of the additions nor any repetition counts. Paths are
compared part by part in all this: a name that is the beginning of another one covers nothing of it,
and of several spellings of one path the set keeps the first.
-/

namespace TestSelection

open TestSelection.Path

namespace PathSet

variable {paths : List Path} {q : Path}

/-- The set of those paths of a list that are below no other one. -/
structure HoldsTopmost (paths : List Path) (s : PathSet) : Prop where
  mem_iff : ∀ q, q ∈ s ↔ Topmost paths q
  /-- The same with all spellings of a path counted as one. -/
  contains_iff : ∀ q, (∃ e ∈ s, e.same q = true) ↔
    (∃ p ∈ paths, p.same q = true) ∧ ∀ x ∈ paths, ¬ q.isBelow x = true
  ordered : s.Pairwise fun e e' => e.less e' = true
  apart : s.Pairwise Apart
  covers_iff : ∀ r : Path, (∃ e ∈ s, r.isWithin e = true) ↔ ∃ p ∈ paths, r.isWithin p = true

theorem exists_topmost_same_iff :
    (∃ e, Topmost paths e ∧ e.same q = true) ↔
      (∃ p ∈ paths, p.same q = true) ∧ ∀ x ∈ paths, ¬ q.isBelow x = true := by
  simp only [same_iff]
  constructor
  · rintro ⟨e, ⟨hfirst, hbelow⟩, heq⟩
    refine ⟨⟨e, hfirst.mem, heq⟩, fun x hx => ?_⟩
    rw [← isBelow_congr heq rfl]
    exact hbelow x hx
  · rintro ⟨⟨p, hp, heq⟩, hbelow⟩
    obtain ⟨e, hfirst, hep⟩ := exists_firstIn hp
    refine ⟨e, ⟨hfirst, fun x hx => ?_⟩, hep.trans heq⟩
    rw [isBelow_congr (hep.trans heq) rfl]
    exact hbelow x hx

theorem holdsTopmost_ofList (paths : List Path) : HoldsTopmost paths (ofList paths) where
  mem_iff _ := mem_ofList
  contains_iff q := by
    simp only [mem_ofList]
    exact exists_topmost_same_iff
  ordered := (ordered_ofList paths).imp less_iff.mpr
  apart := pairwise_apart_ofList paths
  covers_iff _ := exists_mem_ofList_isWithin

/-- The set of added paths holds the topmost ones, and it is the same, part by part, as any other
set that covers the same paths; for example as one of the same paths in another order or repeated. -/
theorem ofList_topmost (paths : List Path) :
    HoldsTopmost paths (ofList paths) ∧
      (∀ more, (ofList more).map parts = (ofList paths).map parts ↔
        ∀ r : Path, (∃ p ∈ more, r.isWithin p = true) ↔ ∃ p ∈ paths, r.isWithin p = true) ∧
      ∀ more, SameParts more paths → (ofList more).map parts = (ofList paths).map parts :=
  ⟨holdsTopmost_ofList paths, fun _ => map_parts_ofList_eq_iff, fun _ h => h.map_parts_ofList⟩

/-- A name that is the beginning of another one is not above it, and a folder is added both below
its parent and in two spellings. -/
theorem ofList_topmost_library :
    let paths : List Path := [⟨"/s/lib/p/A.java"⟩, ⟨"/s/lib"⟩, ⟨"/s/library"⟩, ⟨"/s//lib/"⟩]
    let more : List Path := [⟨"/s/library/"⟩, ⟨"/s/lib"⟩, ⟨"/s/./lib/p/A.java"⟩, ⟨"/s/lib"⟩]
    SameParts more paths ∧ ofList paths = [⟨"/s/lib"⟩, ⟨"/s/library"⟩] ∧
      HoldsTopmost paths (ofList paths) ∧
      (ofList more).map parts = (ofList paths).map parts := by
  intro paths more
  have hmore : SameParts more paths :=
    sameParts_of_exists (by decide +kernel) (by decide +kernel)
  obtain ⟨htopmost, -, hsame⟩ := ofList_topmost paths
  exact ⟨hmore, by decide +kernel, htopmost, hsame more hmore⟩

end PathSet

end TestSelection
