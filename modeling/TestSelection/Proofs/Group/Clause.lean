import TestSelection.Proofs.Group.Folders

/-!
What group files say, property by property: the file, the name of the group and the tokens. A loaded
group has the entries of the tokens of all clauses with its name, one after the other, so that
loading depends on the clauses and on the folders alone.
-/

namespace TestSelection

open Relation

/-- What a property of a group file says. -/
structure GroupClause where
  file : Path
  name : String
  tokens : List (List Char)
deriving DecidableEq

namespace GroupClause

def ofDefinition (d : Path × Property) : GroupClause :=
  ⟨d.1, d.2.key, Chars.words d.2.value.toList⟩

def base (root : Path) (c : GroupClause) : Path := c.file.parent?.getD root

def entries (tree : FileTree) (root : Path) (c : GroupClause) : List GroupEntry :=
  (c.tokens.map (Group.entryOfToken tree root (c.base root))).filterMap Except.toOption

/-- A clause with a bad name or a token that stands for nothing. -/
def Faulty (tree : FileTree) (root : Path) (c : GroupClause) : Prop :=
  Group.isName c.name = false ∨
    ∃ token ∈ c.tokens, ∃ problem, Group.entryOfToken tree root (c.base root) token
      = .error problem

theorem entries_congr {tree tree' : FileTree} (h : tree.SameFolders tree') (root : Path)
    (c : GroupClause) : c.entries tree root = c.entries tree' root := by
  rw [entries, entries, Group.entryOfToken_congr h]

section

variable {tree : FileTree} {root : Path} {c : GroupClause} {es : List GroupEntry}

theorem entries_eq_of_map_eq
    (h : c.tokens.map (Group.entryOfToken tree root (c.base root)) = es.map .ok) :
    c.entries tree root = es := by
  rw [entries, h, List.filterMap_map]
  exact List.filterMap_some

theorem not_faulty_of_map_eq (hname : Group.isName c.name = true)
    (h : c.tokens.map (Group.entryOfToken tree root (c.base root)) = es.map .ok) :
    ¬ c.Faulty tree root := by
  rintro (hfaulty | ⟨token, hmem, problem, hproblem⟩)
  · exact absurd hname (by simp [hfaulty])
  · have herror := List.mem_map_of_mem (f := Group.entryOfToken tree root (c.base root)) hmem
    rw [h, hproblem, List.mem_map] at herror
    obtain ⟨entry, -, hentry⟩ := herror
    exact nomatch hentry

theorem isThere_of_mem_entries {e : GroupEntry} {p : Path} (he : e ∈ c.entries tree root)
    (hp : e.target = .path p) : Group.isThere tree p = true := by
  rw [entries, List.filterMap_map] at he
  obtain ⟨token, -, hentry⟩ := List.mem_filterMap.mp he
  cases hread : Group.entryOfToken tree root (c.base root) token with
  | error problem => simp [hread, Except.toOption] at hentry
  | ok entry =>
      obtain rfl : entry = e := by simpa [hread, Except.toOption] using hentry
      have hok : Group.entryOfToken tree root (c.base root) token
          = .ok ⟨entry.exclude, .path p⟩ := by rw [hread, ← hp]
      exact Group.isThere_of_entryOfToken hok

end

def addToken (c : GroupClause) (token : List Char) : GroupClause :=
  { c with tokens := c.tokens ++ [token] }

theorem entries_addToken {tree : FileTree} {root : Path} {c : GroupClause} {token : List Char}
    {entry : GroupEntry} (h : Group.entryOfToken tree root (c.base root) token = .ok entry) :
    (c.addToken token).entries tree root = c.entries tree root ++ [entry] := by
  have hmap : (c.addToken token).tokens.map
        (Group.entryOfToken tree root ((c.addToken token).base root))
      = c.tokens.map (Group.entryOfToken tree root (c.base root)) ++ [.ok entry] :=
    h ▸ List.map_append ..
  rw [entries, hmap, List.filterMap_append]
  rfl

end GroupClause

/-- All that group files say. -/
def GroupSet.clauses (tree : FileTree) (files : List GroupFile) : List GroupClause :=
  (definitions tree files).map GroupClause.ofDefinition

namespace Group

variable {tree : FileTree} {root : Path}

theorem localProblem_iff {d : Path × Property} :
    LocalProblem tree root d ↔ (GroupClause.ofDefinition d).Faulty tree root := by
  simp only [GroupClause.Faulty, entryOfToken_eq_error_iff]
  constructor
  · rintro (h | ⟨hmem, h⟩)
    · exact Or.inl h
    · exact Or.inr ⟨_, hmem, h⟩
  · rintro (h | ⟨token, hmem, h⟩)
    · exact .invalidName h
    · exact .token hmem h

theorem entries_addProperty (g : Group) (d : Path × Property) :
    (addProperty tree root d.1 g d.2).entries
      = g.entries ++ (GroupClause.ofDefinition d).entries tree root := by
  rw [addProperty, addAll]
  split <;> rfl

end Group

namespace Groups

variable {tree : FileTree} {root : Path}

/-- The entries of a group add up. -/
theorem map_entries_foldl_addProperty (ds : List (Path × Property)) (o : Option Group) :
    (ds.foldl (fun g d => some (Group.addProperty tree root d.1 (g.getD .empty) d.2)) o).map
        Group.entries
      = if ds = [] then o.map Group.entries
        else some ((o.getD .empty).entries ++
          ds.flatMap fun d => (GroupClause.ofDefinition d).entries tree root) := by
  induction ds generalizing o with
  | nil => rfl
  | cons d rest ih =>
      rw [List.foldl_cons, ih, if_neg (List.cons_ne_nil d rest), List.flatMap_cons,
        ← List.append_assoc, ← Group.entries_addProperty]
      split
      · rename_i hrest
        simp [hrest]
      · rfl

/-- Marked groups have the entries that they were read with. -/
theorem map_entries_marked (gs : Groups) (name : String) :
    (gs.marked.get? name).map Group.entries = (gs.get? name).map Group.entries := by
  obtain ⟨more, hmore⟩ := extends_marked gs
  rw [hmore, Option.map_map]
  rfl

end Groups

namespace GroupSet

theorem rules_load (tree : FileTree) (root : Path) (rules : PathRules) (files : List GroupFile) :
    (load tree root rules files).1.rules = rules := rfl

theorem map_entries_load (tree : FileTree) (root : Path) (rules : PathRules)
    (files : List GroupFile) (name : String) :
    ((load tree root rules files).1.groups.get? name).map Group.entries =
      let named := (clauses tree files).filter (·.name == name)
      if named = [] then none else some (named.flatMap (·.entries tree root)) := by
  rw [Groups.groups_load, Groups.map_entries_marked, Groups.read, Groups.readFiles_eq,
    Groups.get?_foldl_addDefinition, Groups.map_entries_foldl_addProperty, clauses,
    List.filter_map]
  simp only [List.map_eq_nil_iff, List.flatMap_map]
  rfl

theorem entries_load {tree : FileTree} {root : Path} {rules : PathRules} {files : List GroupFile}
    {name : String} {g : Group} (hg : (load tree root rules files).1.groups.get? name = some g) :
    g.entries = ((clauses tree files).filter (·.name == name)).flatMap (·.entries tree root) := by
  have hentries := map_entries_load tree root rules files name
  rw [hg, Option.map_some] at hentries
  dsimp only at hentries
  split at hentries
  · exact nomatch hentries
  · exact Option.some.inj hentries

/-- The paths of a loaded group lead to something, or are wildcards in a folder. -/
theorem isThere_of_get?_load {tree : FileTree} {root : Path} {rules : PathRules}
    {files : List GroupFile} {name : String} {g : Group} {e : GroupEntry} {p : Path}
    (hg : (load tree root rules files).1.groups.get? name = some g) (he : e ∈ g.entries)
    (hp : e.target = .path p) : Group.isThere tree p = true := by
  rw [entries_load hg] at he
  obtain ⟨c, -, hc⟩ := List.mem_flatMap.mp he
  exact c.isThere_of_mem_entries hc hp

theorem contains_load {tree : FileTree} {root : Path} {rules : PathRules} {files : List GroupFile}
    {name : String} : (load tree root rules files).1.groups.contains name = true ↔
      ∃ c ∈ clauses tree files, c.name = name := by
  have hentries := map_entries_load tree root rules files name
  rw [Table.contains, ← Option.isSome_map, hentries]
  dsimp only
  split
  · rename_i hnamed
    simpa using hnamed
  · rename_i hnamed
    simpa using hnamed

/-- Validity by clauses. -/
theorem valid_load {tree : FileTree} {root : Path} {rules : PathRules} {files : List GroupFile}
    {name : String} : (load tree root rules files).1.groups.Valid name ↔
      ∀ a, ReflTransGen (load tree root rules files).1.groups.Refers name a →
        (load tree root rules files).1.groups.contains a = true ∧
        (∀ c ∈ clauses tree files, c.name = a → ¬ c.Faulty tree root) ∧
        ¬ TransGen (load tree root rules files).1.groups.Refers a a ∧
        ∀ b, (load tree root rules files).1.groups.Refers a b →
          (load tree root rules files).1.groups.HasEntry b := by
  have hext := Groups.extends_marked (Groups.read tree root files)
  have hdefined : ∀ a, (∃ c ∈ clauses tree files, c.name = a) ↔
      ∃ d ∈ definitions tree files, d.2.key = a := fun a => by
    simp [clauses, GroupClause.ofDefinition]
  have hfaulty : ∀ a, (∀ c ∈ clauses tree files, c.name = a → ¬ c.Faulty tree root) ↔
      ∀ d ∈ definitions tree files, d.2.key = a → ¬ Group.LocalProblem tree root d := fun a => by
    simp only [clauses, List.forall_mem_map, Group.localProblem_iff]
    rfl
  simp only [contains_load, hdefined, hfaulty]
  rw [Groups.groups_load, hext.refers, hext.hasEntry, Groups.valid_marked]
  simp only [Groups.valid_read, and_assoc]

end GroupSet

end TestSelection
