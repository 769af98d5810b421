import TestSelection.Proofs.Group.Marking

/-!
What the group files say. Each property of a readable file is a definition of the group that it
names, and a group is what its definitions add up to. So a group is in order before any marking
exactly if it is defined and no definition of it has a problem of its own.
-/

namespace TestSelection

namespace Group

/-- A token without its sign. -/
def bodyOfToken : List Char → List Char
  | '-' :: body => body
  | body => body

/-- Why no entry can be made of a token. -/
inductive TokenProblem (tree : FileTree) (root base : Path) (token : List Char) : Prop
  | emptyReference (h : bodyOfToken token = [':'])
  | emptyPath (h : ∀ c ∈ bodyOfToken token, c = '/')
  | missingPath (hpath : (bodyOfToken token).head? ≠ some ':')
      (hliteral : (pathOfToken root base (bodyOfToken token)).hasWildcard = false)
      (h : tree.hasPath (pathOfToken root base (bodyOfToken token)) = false)
  | missingFolder (hpath : (bodyOfToken token).head? ≠ some ':')
      (hwildcard : (pathOfToken root base (bodyOfToken token)).hasWildcard = true)
      (h : ∀ parent, (pathOfToken root base (bodyOfToken token)).parent? = some parent →
        tree.hasFolder parent = false)

/-- Why a definition is not in order, whatever other definitions say. -/
inductive LocalProblem (tree : FileTree) (root : Path) (d : Path × Property) : Prop
  | invalidName (h : isName d.2.key = false)
  | token {token : List Char} (hmem : token ∈ Chars.words d.2.value.toList)
      (h : TokenProblem tree root (d.1.parent?.getD root) token)

theorem isThere_eq_false_iff {tree : FileTree} {p : Path} :
    isThere tree p = false ↔ (p.hasWildcard = false ∧ tree.hasPath p = false) ∨
      (p.hasWildcard = true ∧
        ∀ parent, p.parent? = some parent → tree.hasFolder parent = false) := by
  rw [isThere]
  cases p.hasWildcard <;> cases p.parent? <;> simp

theorem bodyOfToken_eq {token body : List Char} {exclude : Bool}
    (h : (match token with
      | '-' :: body => (true, body)
      | body => (false, body)) = (exclude, body)) : bodyOfToken token = body := by
  fun_cases bodyOfToken token with
  | case1 body' => exact (Prod.mk.inj h).2
  | case2 token hsign =>
      split at h
      · exact absurd rfl (hsign _)
      · exact (Prod.mk.inj h).2

theorem entryOfToken_eq_error_iff {tree : FileTree} {root base : Path} {token : List Char} :
    (∃ problem, entryOfToken tree root base token = .error problem) ↔
      TokenProblem tree root base token := by
  fun_cases entryOfToken tree root base token with
  | case1 exclude hsign =>
      exact iff_of_true ⟨_, rfl⟩ (.emptyReference (bodyOfToken_eq hsign))
  | case2 exclude name hname hsign =>
      refine iff_of_false (by simp) fun h => ?_
      have hbody := bodyOfToken_eq hsign
      cases h with
      | emptyReference h =>
          rw [hbody] at h
          exact hname (List.cons.inj h).2
      | emptyPath h =>
          rw [hbody] at h
          exact absurd (h ':' List.mem_cons_self) (by decide)
      | missingPath hpath | missingFolder hpath =>
          rw [hbody] at hpath
          exact hpath rfl
  | case3 exclude body hreference hgroup hslashes hsign =>
      refine iff_of_true ⟨_, rfl⟩ (.emptyPath ?_)
      rw [bodyOfToken_eq hsign]
      simpa using hslashes
  | case4 exclude body hreference hgroup hslashes p hthere hsign =>
      refine iff_of_false (by simp) fun h => ?_
      obtain rfl := bodyOfToken_eq hsign
      cases h with
      | emptyReference h => exact hreference h
      | emptyPath h => exact hslashes (by simpa using h)
      | missingPath _ hliteral h =>
          have hnone := isThere_eq_false_iff.mpr (Or.inl ⟨hliteral, h⟩)
          exact absurd hthere (by simp [p, hnone])
      | missingFolder _ hwildcard h =>
          have hnone := isThere_eq_false_iff.mpr (Or.inr ⟨hwildcard, h⟩)
          exact absurd hthere (by simp [p, hnone])
  | case5 exclude body hreference hgroup hslashes p hthere hsign =>
      refine iff_of_true ⟨_, rfl⟩ ?_
      obtain rfl := bodyOfToken_eq hsign
      have hpath : (bodyOfToken token).head? ≠ some ':' := by
        intro h
        obtain ⟨name, hname⟩ := List.head?_eq_some_iff.mp h
        exact hgroup name hname
      rcases isThere_eq_false_iff.mp (Bool.eq_false_of_not_eq_true hthere) with
        ⟨hliteral, h⟩ | ⟨hwildcard, h⟩
      · exact .missingPath hpath hliteral h
      · exact .missingFolder hpath hwildcard h

/-- An entry is made of a path only if something is there. -/
theorem isThere_of_entryOfToken {tree : FileTree} {root base p : Path} {token : List Char}
    {exclude : Bool} (h : entryOfToken tree root base token = .ok ⟨exclude, .path p⟩) :
    isThere tree p = true := by
  revert h
  fun_cases entryOfToken tree root base token with
  | case4 sign body hreference hgroup hslashes p' hthere =>
      intro h
      obtain ⟨-, rfl⟩ : sign = exclude ∧ p' = p := by simpa using h
      exact hthere
  | _ => simp

/-- Some of the tokens read have a problem. -/
theorem isValid_addAll {g : Group} {read : List (Except GroupProblem GroupEntry)} :
    (g.addAll read).isValid = true ↔
      g.isValid = true ∧ ∀ problem, Except.error problem ∉ read := by
  rw [isValid_iff, isValid_iff, addAll]
  simp only [List.append_eq_nil_iff, List.filterMap_eq_nil_iff]
  refine and_congr_right fun _ => ⟨fun h problem hmem => ?_, fun h r hr => ?_⟩
  · exact nomatch h _ hmem
  · cases r with
    | ok => rfl
    | error problem => exact absurd hr (h problem)

theorem isValid_addProperty {tree : FileTree} {root file : Path} {g : Group} {p : Property} :
    (addProperty tree root file g p).isValid = true ↔
      g.isValid = true ∧ ¬ LocalProblem tree root (file, p) := by
  have hname : (if isName p.key then { g with sources := g.sources ++ [file] }
      else Group.blame { g with sources := g.sources ++ [file] } (.invalidName p.line)).isValid
        = true ↔ g.isValid = true ∧ isName p.key = true := by
    split <;> simp [isValid_iff, blame, *]
  rw [addProperty, isValid_addAll, hname, and_assoc]
  refine and_congr_right fun _ => ⟨?_, fun h => ⟨?_, fun problem hmem => ?_⟩⟩
  · rintro ⟨hkey, htokens⟩ h
    cases h with
    | invalidName h => exact absurd hkey (by simp [h])
    | token hmem h =>
        obtain ⟨problem, hproblem⟩ := entryOfToken_eq_error_iff.mpr h
        exact htokens problem (List.mem_map.mpr ⟨_, hmem, hproblem⟩)
  · by_contra hkey
    exact h (.invalidName (Bool.eq_false_of_not_eq_true hkey))
  · obtain ⟨token, hmem, hproblem⟩ := List.mem_map.mp hmem
    exact h (.token hmem (entryOfToken_eq_error_iff.mp ⟨problem, hproblem⟩))

end Group

/-- The properties of all files that can be read, each with its file. -/
def GroupSet.definitions (tree : FileTree) (files : List GroupFile) : List (Path × Property) :=
  files.flatMap fun file =>
    match tree.readText file.path with
    | .ok text => (Property.ofText text).map fun p => (file.path, p)
    | .error _ => []

namespace Groups

def addDefinition (tree : FileTree) (root : Path) (gs : Groups) (d : Path × Property) : Groups :=
  Table.insert gs d.2.key (Group.addProperty tree root d.1 ((gs.get? d.2.key).getD .empty) d.2)

variable {tree : FileTree} {root : Path}

theorem addFile_eq (file : Path) (gs : Groups) (text : String) :
    gs.addFile tree root file text
      = ((Property.ofText text).map fun p => (file, p)).foldl (addDefinition tree root) gs := by
  rw [addFile, List.foldl_map]
  rfl

theorem readFiles_eq (files : List GroupFile) (gs : Groups) :
    (GroupSet.readFiles tree root gs files).1
      = (GroupSet.definitions tree files).foldl (addDefinition tree root) gs := by
  induction files generalizing gs with
  | nil => rfl
  | cons file rest ih =>
      rw [GroupSet.readFiles, GroupSet.definitions, List.flatMap_cons, List.foldl_append]
      cases hread : tree.readText file.path with
      | ok text =>
          dsimp only
          rw [ih, addFile_eq]
          rfl
      | error error =>
          dsimp only
          split <;> exact ih gs

/-- The definitions of other groups do not count. -/
theorem get?_foldl_addDefinition (ds : List (Path × Property)) (gs : Groups) (name : String) :
    (ds.foldl (addDefinition tree root) gs).get? name
      = (ds.filter fun d => d.2.key == name).foldl
          (fun g d => some (Group.addProperty tree root d.1 (g.getD .empty) d.2))
          (gs.get? name) := by
  induction ds generalizing gs with
  | nil => rfl
  | cons d rest ih =>
      rw [List.foldl_cons, ih, addDefinition, Table.get?_insert]
      by_cases h : d.2.key = name
      · simp [h]
      · simp [h]

theorem exists_valid_foldl_addProperty (ds : List (Path × Property)) (o : Option Group) :
    (∃ g, ds.foldl (fun g d => some (Group.addProperty tree root d.1 (g.getD .empty) d.2)) o
        = some g ∧ g.isValid = true) ↔
      (o ≠ none ∨ ds ≠ []) ∧ (∀ g, o = some g → g.isValid = true) ∧
        ∀ d ∈ ds, ¬ Group.LocalProblem tree root d := by
  induction ds generalizing o with
  | nil => cases o <;> simp
  | cons d rest ih =>
      rw [List.foldl_cons, ih]
      have hempty : Group.empty.isValid = true := rfl
      cases o <;> simp [Group.isValid_addProperty, hempty, and_assoc]

/-- The groups of all files before they are marked. -/
def read (tree : FileTree) (root : Path) (files : List GroupFile) : Groups :=
  (GroupSet.readFiles tree root Table.empty files).1

theorem valid_read {files : List GroupFile} {name : String} :
    (read tree root files).Valid name ↔
      (∃ d ∈ GroupSet.definitions tree files, d.2.key = name) ∧
        ∀ d ∈ GroupSet.definitions tree files, d.2.key = name →
          ¬ Group.LocalProblem tree root d := by
  rw [Valid, read, readFiles_eq, get?_foldl_addDefinition, Table.get?_empty,
    exists_valid_foldl_addProperty]
  simp

theorem groups_load (tree : FileTree) (root : Path) (rules : PathRules) (files : List GroupFile) :
    (GroupSet.load tree root rules files).1.groups = (read tree root files).marked := rfl

end Groups

end TestSelection
