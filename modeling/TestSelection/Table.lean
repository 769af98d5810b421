/-!
Tables from names to values, and sets of names. The entries stand in the order of their names (which
is the order of the UTF-8 bytes), one entry a name, and this is a part of the type: two tables with
the same look-ups are equal.
-/

namespace TestSelection

namespace Table

variable {α : Type}

/-- Puts an entry at its place, in front of the first larger name; the same name is replaced. -/
def place (name : String) (value : α) : List (String × α) → List (String × α)
  | [] => [(name, value)]
  | (n, v) :: rest =>
    if name < n then (name, value) :: (n, v) :: rest
    else if name = n then (name, value) :: rest
    else (n, v) :: place name value rest

/-- The value of the first entry of a name. -/
def find? (name : String) : List (String × α) → Option α
  | [] => none
  | (n, v) :: rest => if n = name then some v else find? name rest

/-- Each name comes after the names before it. -/
def Ordered (entries : List (String × α)) : Prop := entries.Pairwise fun a b => a.1 < b.1

theorem mem_place {name : String} {value : α} {entries : List (String × α)} {e : String × α}
    (h : e ∈ place name value entries) : e = (name, value) ∨ e ∈ entries := by
  induction entries with
  | nil => simpa [place] using h
  | cons head rest ih =>
    obtain ⟨n, v⟩ := head
    grind [place]

theorem ordered_place {name : String} {value : α} {entries : List (String × α)}
    (h : Ordered entries) : Ordered (place name value entries) := by
  induction entries with
  | nil => simp [place, Ordered]
  | cons head rest ih =>
    obtain ⟨n, v⟩ := head
    have hrest : Ordered rest := List.Pairwise.of_cons h
    have hhead : ∀ e ∈ rest, n < e.1 := fun e he => (List.pairwise_cons.1 h).1 e he
    rw [place]
    split
    · rename_i hlt
      refine List.pairwise_cons.2 ⟨fun e he => ?_, h⟩
      rcases List.mem_cons.1 he with rfl | he
      · exact hlt
      · exact String.lt_trans hlt (hhead e he)
    · split
      · rename_i heq
        exact List.pairwise_cons.2 ⟨fun e he => heq ▸ hhead e he, hrest⟩
      · rename_i hlt hne
        refine List.pairwise_cons.2 ⟨fun e he => ?_, ih hrest⟩
        rcases mem_place he with rfl | he
        · exact Decidable.byContradiction fun hge =>
            hne (String.le_antisymm (String.not_lt.1 hge) (String.not_lt.1 hlt))
        · exact hhead e he

theorem find?_place (name other : String) (value : α) (entries : List (String × α)) :
    find? other (place name value entries)
      = if name = other then some value else find? other entries := by
  induction entries with
  | nil => simp [place, find?]
  | cons head rest ih =>
    obtain ⟨n, v⟩ := head
    rw [place]
    split
    · simp [find?]
    · split
      · rename_i heq
        subst heq
        by_cases h : name = other <;> simp [find?, h]
      · rename_i hne
        by_cases h : n = other
        · subst h
          simp [find?, hne]
        · simp [find?, h, ih]

end Table

/-- A table from names to values. -/
structure Table (α : Type) where
  entries : List (String × α) := []
  ordered : Table.Ordered entries := by exact List.Pairwise.nil

namespace Table

variable {α : Type}

def empty : Table α := {}

instance : Inhabited (Table α) := ⟨empty⟩

instance : EmptyCollection (Table α) := ⟨empty⟩

instance [DecidableEq α] : DecidableEq (Table α) := fun s t =>
  if h : s.entries = t.entries then .isTrue (by cases s; cases t; simp_all)
  else .isFalse fun e => h (e ▸ rfl)

def get? (t : Table α) (name : String) : Option α := find? name t.entries

/-- Sets the value of a name, whether or not it had one. -/
def insert (t : Table α) (name : String) (value : α) : Table α :=
  ⟨place name value t.entries, ordered_place t.ordered⟩

def contains (t : Table α) (name : String) : Bool := (t.get? name).isSome

/-- Sets the value of a name that has none. -/
def insertNew (t : Table α) (name : String) (value : α) : Table α :=
  if t.contains name then t else t.insert name value

def names (t : Table α) : List String := t.entries.map (·.1)

def size (t : Table α) : Nat := t.entries.length

/-- Sets the pairs from left to right, so that the last pair of a name counts. -/
def ofList (pairs : List (String × α)) : Table α :=
  pairs.foldl (fun t (name, value) => t.insert name value) empty

/-- Changes each value. -/
def map {β : Type} (f : α → β) (t : Table α) : Table β :=
  ⟨t.entries.map fun e => (e.1, f e.2), by
    simpa [Ordered, List.pairwise_map] using t.ordered⟩

@[simp] theorem get?_empty (name : String) : (empty : Table α).get? name = none := rfl

theorem get?_insert (t : Table α) (name other : String) (value : α) :
    (t.insert name value).get? other = if name = other then some value else t.get? other :=
  find?_place name other value t.entries

theorem get?_insertNew (t : Table α) (name other : String) (value : α) :
    (t.insertNew name value).get? other
      = if name = other ∧ t.get? name = none then some value else t.get? other := by
  unfold insertNew contains
  cases h : t.get? name with
  | none => simp [get?_insert]
  | some v => simp

end Table

abbrev NameSet := Table Unit

namespace NameSet

def add (s : NameSet) (name : String) : NameSet := s.insert name ()

def ofNames (names : List String) : NameSet := names.foldl add Table.empty

def union (s t : NameSet) : NameSet := t.names.foldl add s

theorem contains_add (s : NameSet) (name other : String) :
    (s.add name).contains other = (name == other || s.contains other) := by
  simp only [add, Table.contains, Table.get?_insert]
  by_cases h : name = other <;> simp [h]

end NameSet

end TestSelection
