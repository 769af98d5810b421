import Mathlib.Data.Finset.Card
import Mathlib.Data.List.Nodup
import Mathlib.Data.String.Basic
import TestSelection.Table

/-!
Laws of tables and of sets of names. The entries of a table are the graph of its look-up, its names
have no repetitions, and a set of names is measured by the number of them.
-/

namespace TestSelection

namespace Table

variable {α β : Type}

instance : DecidablePred (@Ordered α) := fun entries =>
  inferInstanceAs (Decidable (entries.Pairwise fun a b => a.1 < b.1))

theorem Ordered.nodup {entries : List (String × α)} (h : Ordered entries) :
    (entries.map Prod.fst).Nodup :=
  List.pairwise_map.mpr (h.imp fun hlt => hlt.ne)

theorem find?_eq_none_iff {name : String} {entries : List (String × α)} :
    find? name entries = none ↔ name ∉ entries.map Prod.fst := by
  induction entries with
  | nil => simp [find?]
  | cons head rest ih =>
      obtain ⟨n, v⟩ := head
      by_cases h : n = name
      · simp [find?, h]
      · simp [find?, h, ih, Ne.symm h]

theorem mem_of_find? {name : String} {value : α} {entries : List (String × α)}
    (h : find? name entries = some value) : (name, value) ∈ entries := by
  induction entries with
  | nil => exact nomatch h
  | cons head rest ih =>
      obtain ⟨n, v⟩ := head
      rw [find?] at h
      split at h
      · rename_i hn
        obtain rfl := Option.some.inj h
        exact hn ▸ List.mem_cons_self
      · exact List.mem_cons_of_mem _ (ih h)

theorem find?_of_mem {name : String} {value : α} {entries : List (String × α)}
    (hnodup : (entries.map Prod.fst).Nodup) (h : (name, value) ∈ entries) :
    find? name entries = some value := by
  induction entries with
  | nil => exact nomatch h
  | cons head rest ih =>
      obtain ⟨n, v⟩ := head
      obtain ⟨hn, hrest⟩ := List.nodup_cons.mp hnodup
      rcases List.mem_cons.mp h with heq | h
      · obtain ⟨rfl, rfl⟩ := Prod.mk.inj heq
        simp [find?]
      · have hne : n ≠ name := by
          rintro rfl
          exact hn (List.mem_map.mpr ⟨_, h, rfl⟩)
        rw [find?, if_neg hne, ih hrest h]

theorem find?_append (name : String) (s t : List (String × α)) :
    find? name (s ++ t) = (find? name s).or (find? name t) := by
  induction s with
  | nil => rfl
  | cons head rest ih =>
      obtain ⟨n, v⟩ := head
      by_cases h : n = name <;> simp [find?, h, ih]

theorem find?_eq_some_iff {name : String} {value : α} {entries : List (String × α)} :
    find? name entries = some value ↔
      ∃ before after, entries = before ++ (name, value) :: after ∧
        ∀ e ∈ before, e.1 ≠ name := by
  constructor
  · intro h
    induction entries with
    | nil => simp [find?] at h
    | cons head rest ih =>
        obtain ⟨n, v⟩ := head
        by_cases hn : n = name
        · subst hn
          rw [find?, if_pos rfl] at h
          obtain rfl := Option.some.inj h
          exact ⟨[], rest, rfl, List.forall_mem_nil _⟩
        · rw [find?, if_neg hn] at h
          obtain ⟨before, after, rfl, hbefore⟩ := ih h
          exact ⟨(n, v) :: before, after, rfl, List.forall_mem_cons.mpr ⟨hn, hbefore⟩⟩
  · rintro ⟨before, after, rfl, hbefore⟩
    have hnone : find? name before = none := by
      rw [find?_eq_none_iff, List.mem_map]
      rintro ⟨e, he, heq⟩
      exact hbefore e he heq
    simp [find?_append, hnone, find?]

/-- Where no name has two entries it does not matter at which end a look-up starts. -/
theorem find?_reverse {entries : List (String × α)} (h : (entries.map Prod.fst).Nodup)
    (name : String) : find? name entries.reverse = find? name entries := by
  have hreverse : (entries.reverse.map Prod.fst).Nodup := by
    rw [List.map_reverse]
    exact List.nodup_reverse.mpr h
  ext value
  constructor
  · intro hvalue
    exact find?_of_mem h (List.mem_reverse.mp (mem_of_find? hvalue))
  · intro hvalue
    exact find?_of_mem hreverse (List.mem_reverse.mpr (mem_of_find? hvalue))

theorem mem_entries_iff {t : Table α} {name : String} {value : α} :
    (name, value) ∈ t.entries ↔ t.get? name = some value :=
  ⟨find?_of_mem t.ordered.nodup, mem_of_find?⟩

theorem nodup_names (t : Table α) : t.names.Nodup := t.ordered.nodup

theorem get?_eq_none_iff {t : Table α} {name : String} : t.get? name = none ↔ name ∉ t.names :=
  find?_eq_none_iff

theorem contains_iff {t : Table α} {name : String} :
    t.contains name = true ↔ ∃ value, t.get? name = some value :=
  Option.isSome_iff_exists

theorem mem_names_iff {t : Table α} {name : String} :
    name ∈ t.names ↔ t.contains name = true := by
  rw [contains, Option.isSome_iff_ne_none, Ne, get?_eq_none_iff, not_not]

@[simp] theorem length_names (t : Table α) : t.names.length = t.size := List.length_map _

theorem find?_map (f : String → α → β) (name : String) (entries : List (String × α)) :
    find? name (entries.map fun e => (e.1, f e.1 e.2)) = (find? name entries).map (f name) := by
  induction entries with
  | nil => rfl
  | cons head rest ih =>
      obtain ⟨n, v⟩ := head
      by_cases h : n = name <;> simp [find?, h, ih]

theorem get?_map (f : α → β) (t : Table α) (name : String) :
    (t.map f).get? name = (t.get? name).map f :=
  find?_map (fun _ => f) name t.entries

theorem get?_foldl_insert {pairs : List (String × α)} (hnodup : (pairs.map Prod.fst).Nodup)
    (t : Table α) (name : String) :
    (pairs.foldl (fun t p => t.insert p.1 p.2) t).get? name
      = (find? name pairs).or (t.get? name) := by
  induction pairs generalizing t with
  | nil => rfl
  | cons head rest ih =>
      obtain ⟨n, v⟩ := head
      obtain ⟨hn, hrest⟩ := List.nodup_cons.mp hnodup
      rw [List.foldl_cons, ih hrest, get?_insert, find?]
      by_cases h : n = name
      · subst h
        simp [find?_eq_none_iff.mpr hn]
      · simp [h]

theorem get?_ofList {pairs : List (String × α)} (hnodup : (pairs.map Prod.fst).Nodup)
    (name : String) : (ofList pairs).get? name = find? name pairs := by
  rw [ofList, get?_foldl_insert hnodup, get?_empty, Option.or_none]

theorem length_place {name : String} {value : α} {entries : List (String × α)}
    (h : find? name entries = none) : (place name value entries).length = entries.length + 1 := by
  induction entries with
  | nil => rfl
  | cons head rest ih =>
      obtain ⟨n, v⟩ := head
      rw [find?] at h
      split_ifs at h with hn
      rw [place]
      split_ifs with hlt heq
      · rfl
      · exact absurd heq.symm hn
      · rw [List.length_cons, ih h, List.length_cons]

/-- Where a name of a kind comes first, the names of this kind behind it have no say in which entry
of the kind is the first. -/
theorem find?_place_of_kind (kind : String → Bool) {name : String} {value : α}
    {entries : List (String × α)} (hordered : Ordered entries)
    (h : kind name = true → ∃ e ∈ entries, e.1 < name ∧ kind e.1 = true) :
    (place name value entries).find? (kind ·.1) = entries.find? (kind ·.1) := by
  induction entries with
  | nil =>
      have hkind : ¬ kind name = true := fun hkind => by simpa using h hkind
      simp [place, hkind]
  | cons head rest ih =>
      obtain ⟨n, v⟩ := head
      obtain ⟨hhead, hrest⟩ := List.pairwise_cons.mp hordered
      have hnone (hle : name ≤ n) : ¬ kind name = true := by
        intro hkind
        obtain ⟨e, he, hlt, -⟩ := h hkind
        rcases List.mem_cons.mp he with rfl | he
        · exact hle hlt
        · exact hle ((hhead e he).trans hlt)
      rw [place]
      split
      · rename_i hlt
        simp [hnone hlt.le]
      · split
        · rename_i heq
          subst heq
          simp [hnone le_rfl]
        · by_cases hn : kind n = true
          · simp [hn]
          · have hbehind : kind name = true → ∃ e ∈ rest, e.1 < name ∧ kind e.1 = true := by
              intro hkind
              obtain ⟨e, he, hlt, hekind⟩ := h hkind
              rcases List.mem_cons.mp he with rfl | he
              · exact absurd hekind hn
              · exact ⟨e, he, hlt, hekind⟩
            simp [hn, ih hrest hbehind]

theorem place_of_find? {name : String} {value : α} {entries : List (String × α)}
    (hordered : Ordered entries) (h : find? name entries = some value) :
    place name value entries = entries := by
  induction entries with
  | nil => exact nomatch h
  | cons head rest ih =>
      obtain ⟨n, v⟩ := head
      obtain ⟨hhead, hrest⟩ := List.pairwise_cons.mp hordered
      rw [find?] at h
      split at h
      · rename_i hn
        obtain rfl := Option.some.inj h
        rw [place, if_neg (hn ▸ lt_irrefl n), if_pos hn.symm, hn]
      · rename_i hn
        have hlt : n < name := hhead _ (mem_of_find? h)
        rw [place, if_neg hlt.not_gt, if_neg (Ne.symm hn), ih hrest h]

/-- Nothing changes where a name gets the value that it has. -/
theorem insert_of_get? {t : Table α} {name : String} {value : α} (h : t.get? name = some value) :
    t.insert name value = t := by
  cases t with
  | mk entries hordered => simp only [insert, place_of_find? hordered h]

theorem size_insert {t : Table α} {name : String} {value : α} (h : t.get? name = none) :
    (t.insert name value).size = t.size + 1 :=
  length_place h

end Table

namespace NameSet

/-- The names of a set as a finite set. -/
def toFinset (s : NameSet) : Finset String := s.names.toFinset

theorem mem_toFinset {s : NameSet} {name : String} :
    name ∈ s.toFinset ↔ s.contains name = true := by
  rw [toFinset, List.mem_toFinset, Table.mem_names_iff]

theorem card_toFinset (s : NameSet) : s.toFinset.card = s.size := by
  rw [toFinset, List.toFinset_card_of_nodup s.nodup_names, Table.length_names]

theorem contains_foldl_add (names : List String) (s : NameSet) (name : String) :
    (names.foldl add s).contains name = true ↔ name ∈ names ∨ s.contains name = true := by
  induction names generalizing s with
  | nil => simp
  | cons head rest ih =>
      rw [List.foldl_cons, ih, contains_add, Bool.or_eq_true, beq_iff_eq, List.mem_cons]
      tauto

theorem contains_ofNames {names : List String} {name : String} :
    (ofNames names).contains name = true ↔ name ∈ names := by
  rw [ofNames, contains_foldl_add]
  simp [Table.contains]

end NameSet

end TestSelection
