import Mathlib.Order.Bounds.Basic
import Mathlib.Order.Interval.Finset.Nat
import TestSelection.Proofs.Digits
import TestSelection.Proofs.Table
import TestSelection.Scan.Source

/-!
The ids of the tests of one source. Where an id has to be found, it is the least numbered one from
the place of its declaration on that no declaration of the source has for its own and none before
it has got. So the search ends: of one number more than there are ids, one is free. That numbers
grow with places, that no two ids are the same, and that a number is the place itself where nobody
asks for numbered ids, all follow from the least number alone.
-/

namespace TestSelection

namespace LocatedDeclaration

/-! ### Free numbers -/

theorem numberedId_injective : Function.Injective numberedId := by
  intro m n h
  rw [numberedId, numberedId, String.append_right_inj] at h
  have hrepr : Nat.repr m = Nat.repr n := h
  rw [← Chars.natOfDigits_repr m, hrepr, Chars.natOfDigits_repr]

/-- Of one number more than there are ids taken, one is free. -/
theorem exists_free (taken : NameSet) (number : Nat) :
    ∃ m, number ≤ m ∧ m < number + (taken.size + 1) ∧ taken.contains (numberedId m) = false := by
  have hcard : taken.toFinset.card
      < ((Finset.Ico number (number + (taken.size + 1))).image numberedId).card := by
    rw [Finset.card_image_of_injective _ numberedId_injective, Nat.card_Ico,
      NameSet.card_toFinset]
    omega
  obtain ⟨id, hid, hfree⟩ := Finset.exists_mem_notMem_of_card_lt_card hcard
  obtain ⟨m, hm, rfl⟩ := Finset.mem_image.mp hid
  obtain ⟨hle, hlt⟩ := Finset.mem_Ico.mp hm
  rw [NameSet.mem_toFinset, Bool.not_eq_true] at hfree
  exact ⟨m, hle, hlt, hfree⟩

theorem isLeast_freeNumber (taken : NameSet) (number : Nat) :
    IsLeast {m | number ≤ m ∧ taken.contains (numberedId m) = false}
      (freeNumber taken number) := by
  obtain ⟨m, hle, hlt, hfree⟩ := exists_free taken number
  cases hfind : (List.range' number (taken.size + 1)).find? fun n =>
      !taken.contains (numberedId n) with
  | none =>
      have hnone := List.find?_range'_eq_none.mp hfind m hle hlt
      simp [hfree] at hnone
  | some least =>
      rw [freeNumber, hfind, Option.getD_some]
      obtain ⟨hleast, hmem, hbelow⟩ := List.find?_range'_eq_some.mp hfind
      refine ⟨⟨(List.mem_range'_1.mp hmem).1, by simpa using hleast⟩, fun n ⟨hn, hnfree⟩ => ?_⟩
      by_contra hlt
      have htaken := hbelow n hn (not_le.mp hlt)
      simp [hnfree] at htaken

/-! ### One declaration after the other -/

/-- The ids that the declarations have for their own. -/
def ownIds (ds : List LocatedDeclaration) : List (Option String) :=
  ds.map (·.declaration.explicitId?)

theorem ownIds_ofComments (rules : TagRules) (comments : List Comment) :
    ownIds (ofComments rules comments) = (comments.filter Comment.declaresTest).map fun comment =>
      (Declaration.ofEntries rules (TagEntry.ofComment comment.text)).explicitId? := by
  rw [ownIds, ofComments, List.map_map]
  refine List.map_congr_left fun comment _ => ?_
  rw [Function.comp_apply, ofComment]

theorem length_idsFrom (place : Nat) (taken : NameSet) (ds : List LocatedDeclaration) :
    (idsFrom place taken ds).length = ds.length := by
  induction ds generalizing place taken with
  | nil => rfl
  | cons d rest ih =>
      rw [idsFrom]
      split <;> simp [ih]

/-- Own ids are kept. -/
theorem getElem?_idsFrom_of_own {place k : Nat} {taken : NameSet} {ds : List LocatedDeclaration}
    {id : String} (h : (ownIds ds)[k]? = some (some id)) :
    (idsFrom place taken ds)[k]? = some id := by
  induction ds generalizing place taken k with
  | nil => exact nomatch h
  | cons d rest ih =>
      rw [idsFrom]
      cases k with
      | zero =>
          have hd : d.declaration.explicitId? = some id := Option.some.inj h
          rw [hd]
          rfl
      | succ k => split <;> exact ih h

/-- The numbers that are free behind an id are those that were free before, without its own. -/
theorem isLeast_cons {place m : Nat} {taken after : NameSet} {id : String} {given : List String}
    (hafter : ∀ n, after.contains (numberedId n) = false ↔
      taken.contains (numberedId n) = false ∧ numberedId n ≠ id)
    (h : IsLeast {n | place ≤ n ∧ after.contains (numberedId n) = false ∧ numberedId n ∉ given} m) :
    IsLeast {n | place ≤ n ∧ taken.contains (numberedId n) = false ∧
      numberedId n ∉ id :: given} m := by
  simpa only [hafter, and_assoc, List.mem_cons, not_or] using h

/-- The number found for a declaration is the least one from its place on whose id is neither taken
at the start nor given to a declaration before it. -/
theorem isLeast_idsFrom {place k : Nat} {taken : NameSet} {ds : List LocatedDeclaration}
    (htaken : ∀ id, some id ∈ ownIds ds → taken.contains id = true)
    (h : (ownIds ds)[k]? = some none) :
    ∃ m, (idsFrom place taken ds)[k]? = some (numberedId m) ∧
      IsLeast {n | place + k ≤ n ∧ taken.contains (numberedId n) = false ∧
        numberedId n ∉ (idsFrom place taken ds).take k} m := by
  induction ds generalizing place taken k with
  | nil => exact nomatch h
  | cons d rest ih =>
      have hrest : ∀ id, some id ∈ ownIds rest → taken.contains id = true :=
        fun id hid => htaken id (List.mem_cons_of_mem _ hid)
      rw [idsFrom]
      cases k with
      | zero =>
          have hd : d.declaration.explicitId? = none := Option.some.inj h
          rw [hd]
          exact ⟨_, rfl, by simpa using isLeast_freeNumber taken place⟩
      | succ k =>
          have hplace : place + (k + 1) = place + 1 + k := by omega
          rw [hplace]
          split
          · rename_i id hd
            obtain ⟨m, hm, hleast⟩ := ih hrest h
            refine ⟨m, hm, isLeast_cons (fun n => ?_) hleast⟩
            have hid : taken.contains id = true := htaken id (hd ▸ List.mem_cons_self)
            exact ⟨fun hn => ⟨hn, by rintro rfl; simp [hid] at hn⟩, And.left⟩
          · have hadd : ∀ id, some id ∈ ownIds rest →
                (taken.add (numberedId (freeNumber taken place))).contains id = true :=
              fun id hid => by rw [NameSet.contains_add, hrest id hid, Bool.or_true]
            obtain ⟨m, hm, hleast⟩ := ih hadd h
            refine ⟨m, hm, isLeast_cons (fun n => ?_) hleast⟩
            rw [NameSet.contains_add, Bool.or_eq_false_iff, beq_eq_false_iff_ne, and_comm, ne_comm]

/-! ### The rules for ids -/

/-- The ids of the declarations of one source, where `own` are those that the declarations have for
their own. -/
structure Numbering (own ids : List (Option String)) : Prop where
  length_eq : ids.length = own.length
  /-- Own ids are kept. -/
  kept : ∀ (k : Nat) (id : String), own[k]? = some (some id) → ids[k]? = some (some id)
  /-- A single declaration needs no id. -/
  alone : own = [none] → ids = [none]
  /-- Of several declarations, one without an id of its own gets the least number from its place
  on whose id no declaration has for its own and none before it has got. -/
  found : 2 ≤ own.length → ∀ k : Nat, own[k]? = some none →
    ∃ m, ids[k]? = some (some (numberedId m)) ∧
      IsLeast {n | k ≤ n ∧ some (numberedId n) ∉ own ∧ some (numberedId n) ∉ ids.take k} m

theorem ids_of_two_le {ds : List LocatedDeclaration} (h : 2 ≤ ds.length) :
    ids ds =
      (idsFrom 0 (NameSet.ofNames (ds.filterMap (·.declaration.explicitId?))) ds).map some := by
  match ds with
  | _ :: _ :: _ => rfl

theorem contains_ofNames_ownIds {ds : List LocatedDeclaration} {id : String} :
    (NameSet.ofNames (ds.filterMap (·.declaration.explicitId?))).contains id = true ↔
      some id ∈ ownIds ds := by
  rw [NameSet.contains_ofNames, List.mem_filterMap, ownIds, List.mem_map]

theorem numbering_ids_of_two_le {ds : List LocatedDeclaration} (h : 2 ≤ ds.length) :
    Numbering (ownIds ds) (ids ds) := by
  have hlength : (ownIds ds).length = ds.length := List.length_map _
  rw [ids_of_two_le h]
  refine ⟨?_, fun k id hk => ?_, fun hone => ?_, fun _ k hk => ?_⟩
  · rw [List.length_map, length_idsFrom, hlength]
  · rw [List.getElem?_map, getElem?_idsFrom_of_own hk]
    rfl
  · rw [hone, List.length_singleton] at hlength
    omega
  · obtain ⟨m, hm, hleast⟩ := isLeast_idsFrom (fun id => contains_ofNames_ownIds.mpr) hk
    refine ⟨m, by rw [List.getElem?_map, hm]; rfl, ?_⟩
    simpa [← contains_ofNames_ownIds, ← List.map_take] using hleast

theorem numbering_ids (ds : List LocatedDeclaration) : Numbering (ownIds ds) (ids ds) := by
  match ds with
  | [] => exact ⟨rfl, nofun, nofun, nofun⟩
  | [d] => exact ⟨rfl, fun _ _ => id, id, fun h => absurd h (by simp [ownIds])⟩
  | d :: d' :: rest => exact numbering_ids_of_two_le (by simp)

namespace Numbering

variable {own ids : List (Option String)} {j k m n : Nat}

/-- A declaration has an id of its own, which it keeps, or it has none. -/
theorem own_cases (h : Numbering own ids) (hk : k < own.length) :
    (∃ id, some id ∈ own ∧ ids[k]? = some (some id)) ∨ own[k]? = some none := by
  cases hown : own[k] with
  | some id =>
      have hid : own[k]? = some (some id) := hown ▸ List.getElem?_eq_getElem hk
      exact Or.inl ⟨id, List.mem_of_getElem? hid, h.kept k id hid⟩
  | none => exact Or.inr (hown ▸ List.getElem?_eq_getElem hk)

/-- Numbers grow with places. -/
theorem lt_of_lt (h : Numbering own ids) (hjk : j < k) (hj : own[j]? = some none)
    (hk : own[k]? = some none) (hm : ids[j]? = some (some (numberedId m)))
    (hn : ids[k]? = some (some (numberedId n))) : m < n := by
  obtain ⟨hlength, -⟩ := List.getElem?_eq_some_iff.mp hk
  obtain ⟨m', hm', -, hleast⟩ := h.found (by omega) j hj
  obtain ⟨n', hn', ⟨hle, hown, hgiven⟩, -⟩ := h.found (by omega) k hk
  obtain rfl := numberedId_injective (Option.some.inj (Option.some.inj (hm.symm.trans hm')))
  obtain rfl := numberedId_injective (Option.some.inj (Option.some.inj (hn.symm.trans hn')))
  have hmn : m ≤ n := by
    refine hleast ⟨by omega, hown, fun hbefore => hgiven ?_⟩
    exact (List.take_prefix_take_left (by omega)).subset hbefore
  refine lt_of_le_of_ne hmn ?_
  rintro rfl
  exact hgiven (List.mem_of_getElem? (by rw [List.getElem?_take_of_lt hjk, hm]))

/-- No id that has been found is that of another declaration. -/
theorem ne_of_ne (h : Numbering own ids) (hjk : j ≠ k) (hj : j < own.length)
    (hk : own[k]? = some none) : ids[j]? ≠ ids[k]? := by
  obtain ⟨hlength, -⟩ := List.getElem?_eq_some_iff.mp hk
  obtain ⟨m, hm, ⟨-, hown, hgiven⟩, -⟩ := h.found (by omega) k hk
  intro heq
  rw [hm] at heq
  rcases lt_or_gt_of_ne hjk with hlt | hgt
  · exact hgiven (List.mem_of_getElem? (by rw [List.getElem?_take_of_lt hlt, heq]))
  · rcases h.own_cases hj with ⟨id, hid, hkept⟩ | hnone
    · obtain rfl := Option.some.inj (Option.some.inj (hkept.symm.trans heq))
      exact hown hid
    · exact lt_irrefl m (h.lt_of_lt hgt hk hnone hm heq)

/-- Where no declaration has a numbered id for its own, numbers are places. -/
theorem getElem?_of_forall_not_mem (h : Numbering own ids) (htwo : 2 ≤ own.length)
    (hown : ∀ n, some (numberedId n) ∉ own) (hk : own[k]? = some none) :
    ids[k]? = some (some (numberedId k)) := by
  induction k using Nat.strong_induction_on with
  | _ k ih =>
      obtain ⟨m, hm, ⟨hle, -⟩, hleast⟩ := h.found htwo k hk
      suffices hmk : m ≤ k by rwa [le_antisymm hmk hle] at hm
      refine hleast ⟨le_rfl, hown k, fun hbefore => ?_⟩
      obtain ⟨j, hj, hid⟩ := List.mem_take_iff_getElem.mp hbefore
      have hjk : j < k := by omega
      have hj' : j < ids.length := by omega
      have hgiven : ids[j]? = some (some (numberedId k)) := hid ▸ List.getElem?_eq_getElem hj'
      rcases h.own_cases (h.length_eq ▸ hj') with ⟨id, hmem, hkept⟩ | hnone
      · obtain rfl := Option.some.inj (Option.some.inj (hkept.symm.trans hgiven))
        exact hown k hmem
      · have hplace := Option.some.inj (Option.some.inj ((ih j hjk hnone).symm.trans hgiven))
        exact hjk.ne (numberedId_injective hplace)

end Numbering

end LocatedDeclaration

namespace ScanConfig

open LocatedDeclaration

/-- Each declaration has its test, with the id that stands at its place. -/
theorem forall₂_describe {file : Path} {relativePath : String} {dir : DirectoryProperties}
    {ds : List LocatedDeclaration} {ids : List (Option String)} (h : ids.length = ds.length) :
    List.Forall₂ (fun (d : LocatedDeclaration) test =>
        test = d.declaration.describe file relativePath d.line test.id dir) ds
      ((ds.zip ids).map fun (d, id) => d.declaration.describe file relativePath d.line id dir) := by
  induction ds generalizing ids with
  | nil => exact .nil
  | cons d rest ih =>
      match ids with
      | id :: ids => exact .cons rfl (ih (Nat.succ.inj h))

theorem map_id_testsOfComments (c : ScanConfig) (file : Path) (relativePath : String)
    (comments : List Comment) (dir : DirectoryProperties) :
    (c.testsOfComments file relativePath comments dir).map (·.id)
      = ids (ofComments (c.rulesFor dir) comments) := by
  have hlength := (numbering_ids (ofComments (c.rulesFor dir) comments)).length_eq
  rw [testsOfComments, List.map_map]
  exact List.map_snd_zip (by rw [hlength, ownIds, List.length_map])

/-- Each comment that declares a test gives one. -/
theorem forall₂_testsOfComments (c : ScanConfig) (file : Path) (relativePath : String)
    (comments : List Comment) (dir : DirectoryProperties) :
    List.Forall₂ (fun (comment : Comment) test => test
        = (Declaration.ofEntries (c.rulesFor dir) (TagEntry.ofComment comment.text)).describe file
          relativePath comment.line test.id dir)
      (comments.filter Comment.declaresTest)
      (c.testsOfComments file relativePath comments dir) := by
  have hlength := (numbering_ids (ofComments (c.rulesFor dir) comments)).length_eq
  rw [ownIds, List.length_map] at hlength
  exact List.forall₂_map_left_iff.mp (forall₂_describe hlength)

/-- Of the comments of a source, each that declares a test gives one, in their order. Its id is the
one that it has for its own, none if it stands alone, or else the least numbered one from its place
on that no declaration has for its own and none before it has got. So numbers grow with places, no
id that has been found is that of another declaration, and numbers are places where no declaration
has a numbered id for its own. -/
theorem numbering_testsOfComments (c : ScanConfig) (file : Path) (relativePath : String)
    (comments : List Comment) (dir : DirectoryProperties) :
    let declaring := comments.filter Comment.declaresTest
    let declared := fun comment : Comment =>
      Declaration.ofEntries (c.rulesFor dir) (TagEntry.ofComment comment.text)
    let own := declaring.map fun comment => (declared comment).explicitId?
    let tests := c.testsOfComments file relativePath comments dir
    let ids := tests.map (·.id)
    List.Forall₂ (fun comment test => test
        = (declared comment).describe file relativePath comment.line test.id dir) declaring tests ∧
      Numbering own ids ∧
      (∀ j k m n : Nat, j < k → own[j]? = some none → own[k]? = some none →
        ids[j]? = some (some (numberedId m)) → ids[k]? = some (some (numberedId n)) → m < n) ∧
      (∀ j k : Nat, j ≠ k → j < own.length → own[k]? = some none → ids[j]? ≠ ids[k]?) ∧
      (2 ≤ own.length → (∀ n, some (numberedId n) ∉ own) →
        ∀ k : Nat, own[k]? = some none → ids[k]? = some (some (numberedId k))) := by
  intro declaring declared own tests ids
  have hnumbering : Numbering own ids := by
    have hids := numbering_ids (ofComments (c.rulesFor dir) comments)
    rwa [ownIds_ofComments, ← c.map_id_testsOfComments file relativePath comments dir] at hids
  exact ⟨c.forall₂_testsOfComments file relativePath comments dir, hnumbering,
    fun j k m n => hnumbering.lt_of_lt, fun j k => hnumbering.ne_of_ne,
    fun htwo hown k => hnumbering.getElem?_of_forall_not_mem htwo hown⟩

/-- Numbered ids of its own are passed over wherever they stand, and so are those that have been
given. -/
theorem numbering_testsOfComments_taken :
    let c := forSuite ⟨"suite"⟩ default
    let dir := c.suite.propertiesFor ""
    let source := "/* @test */ /* @test id=id1 */ /* @test */ /* none */ /* @test id=id4 */\n" ++
      "/* @test */ /* @test */"
    let tests := c.testsOfSource ⟨"suite/A.java"⟩ "A.java" source .block dir
    tests.map (·.id) = [some "id0", some "id1", some "id2", some "id4", some "id5", some "id6"] ∧
      tests.map (·.url) = ["A.java#id0", "A.java#id1", "A.java#id2", "A.java#id4", "A.java#id5",
        "A.java#id6"] ∧
      Numbering [none, some "id1", none, some "id4", none, none] (tests.map (·.id)) := by
  intro c dir source tests
  have hids : tests.map (·.id)
      = [some "id0", some "id1", some "id2", some "id4", some "id5", some "id6"] := by
    decide +kernel
  have hurls : tests.map (·.url) = ["A.java#id0", "A.java#id1", "A.java#id2", "A.java#id4",
      "A.java#id5", "A.java#id6"] := by
    decide +kernel
  have hnumbering := (numbering_testsOfComments c ⟨"suite/A.java"⟩ "A.java"
    (CommentStyle.block.extract source) dir).2.1
  have hown : ((CommentStyle.block.extract source).filter Comment.declaresTest).map (fun comment =>
      (Declaration.ofEntries (c.rulesFor dir) (TagEntry.ofComment comment.text)).explicitId?)
      = [none, some "id1", none, some "id4", none, none] := by
    decide +kernel
  exact ⟨hids, hurls, hown ▸ hnumbering⟩

end ScanConfig

end TestSelection
