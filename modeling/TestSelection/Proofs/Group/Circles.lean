import Mathlib.Data.List.Flatten
import TestSelection.Proofs.Cuts
import TestSelection.Proofs.Group.Definition

/-!
Reports of circles. A group leads back to itself exactly if it and the groups that it leads to and
that lead to it make up a strongly connected component with a reference inside, and the message
names this component. Nothing but the search for circles adds such a problem, and it adds one to a
group, so the message stands there once. To search component by component, in whatever order they
are found, comes to the same.
-/

namespace TestSelection

open Relation

namespace GroupProblem

def isCycle : GroupProblem → Bool
  | cycle _ => true
  | _ => false

theorem message_cycle (members : List String) :
    message (.cycle members) = "cyclic group reference" ++ (": " ++ ", ".intercalate members) := by
  rw [← String.append_assoc]
  rfl

theorem startsWith_message (problem : GroupProblem) :
    Text.startsWith "cyclic group reference" problem.message = problem.isCycle := by
  cases problem with
  | cycle members => exact Text.startsWith_iff.mpr ⟨_, message_cycle members⟩
  | invalidName line =>
      exact @Text.startsWith_append_of_ne _ "invalid group name at line " 'c' 'i' rfl rfl
        (by decide) (toString line)
  | emptyReference token =>
      exact @Text.startsWith_append_of_ne _ "empty group reference: " 'c' 'e' rfl rfl
        (by decide) token
  | emptyPath token =>
      exact @Text.startsWith_append_of_ne _ "empty path: " 'c' 'e' rfl rfl (by decide) token
  | missingFile body =>
      exact @Text.startsWith_append_of_ne _ "file not found: " 'c' 'f' rfl rfl (by decide) body
  | badReference name =>
      exact @Text.startsWith_append_of_ne _ "group not found: " 'c' 'g' rfl rfl (by decide) name

end GroupProblem

namespace Group

def circles (g : Group) : List GroupProblem := g.problems.filter (·.isCycle)

/-- The messages of a group that speak of circles. -/
def circleMessages (g : Group) : List String :=
  (g.problems.map (·.message)).filter (Text.startsWith "cyclic group reference")

theorem circleMessages_eq (g : Group) : g.circleMessages = g.circles.map (·.message) := by
  rw [circleMessages, circles, List.filter_map]
  congr 2
  funext problem
  exact problem.startsWith_message

theorem circles_blameAll (g : Group) (problems : List GroupProblem) :
    (g.blameAll problems).circles = g.circles ++ problems.filter (·.isCycle) :=
  List.filter_append _ _

theorem entryOfToken_ne_cycle (tree : FileTree) (root base : Path) (token : List Char)
    (members : List String) : entryOfToken tree root base token ≠ .error (.cycle members) := by
  fun_cases entryOfToken tree root base token <;> simp

theorem circles_addAll {read : List (Except GroupProblem GroupEntry)}
    (h : ∀ members, .error (.cycle members) ∉ read) (g : Group) :
    (g.addAll read).circles = g.circles := by
  show (g.problems ++ _).filter _ = _
  rw [List.filter_append, circles, List.append_right_eq_self, List.filter_eq_nil_iff]
  intro problem hproblem
  obtain ⟨r, hr, hread⟩ := List.mem_filterMap.mp hproblem
  cases r with
  | ok entry => exact nomatch hread
  | error reason =>
      obtain rfl := Option.some.inj hread
      cases reason with
      | cycle members => exact absurd hr (h members)
      | _ => exact Bool.false_ne_true

theorem circles_addProperty (tree : FileTree) (root file : Path) (g : Group) (p : Property) :
    (addProperty tree root file g p).circles = g.circles := by
  rw [addProperty, circles_addAll]
  · split
    · rfl
    · exact (circles_blameAll _ [_]).trans (List.append_nil _)
  · intro members hmem
    obtain ⟨token, -, htoken⟩ := List.mem_map.mp hmem
    exact entryOfToken_ne_cycle tree root _ token members htoken

end Group

namespace Groups

variable {gs : Groups} {name other : String} {g : Group}

theorem circles_read {tree : FileTree} {root : Path} {files : List GroupFile}
    (hg : (read tree root files).get? name = some g) : g.circles = [] := by
  rw [read, readFiles_eq, get?_foldl_addDefinition, Table.get?_empty] at hg
  have hnone : ∀ (ds : List (Path × Property)) (o : Option Group),
      (∀ g, o = some g → g.circles = []) → ∀ g, ds.foldl (fun g d =>
        some (Group.addProperty tree root d.1 (g.getD .empty) d.2)) o = some g →
          g.circles = [] := by
    intro ds
    induction ds with
    | nil => exact fun _ ho => ho
    | cons d rest ih =>
        intro o ho
        apply ih
        rintro _ ⟨⟩
        rw [Group.circles_addProperty]
        cases o with
        | none => rfl
        | some g => exact ho g rfl
  exact hnone _ none (by rintro _ ⟨⟩) g hg

/-! ### The search for circles -/

/-- Two groups lead to each other, through defined groups. -/
def Linked (gs : Groups) (a b : String) : Prop :=
  TransGen gs.RefersDefined a b ∧ TransGen gs.RefersDefined b a

theorem Linked.self (h : gs.Linked name other) : TransGen gs.RefersDefined name name :=
  h.1.trans h.2

theorem contains_of_transGen (h : TransGen gs.RefersDefined name other) :
    gs.contains name = true := by
  obtain ⟨b, hb, -⟩ := TransGen.head'_iff.mp h
  exact hb.1.contains

theorem mem_circleOf (hg : gs.get? name = some g) :
    other ∈ circleOf (Table.map gs.reached gs) name ↔ gs.Linked name other := by
  rw [circleOf, Table.get?_map, hg]
  dsimp only [Option.map_some]
  by_cases hself : (gs.reached g).contains name = true
  · rw [if_pos hself, List.mem_filter, Table.mem_names_iff, contains_reached hg]
    apply and_congr_right
    intro hother
    rw [Table.get?_map]
    cases hg' : gs.get? other with
    | none =>
        refine iff_of_false Bool.false_ne_true fun h => ?_
        obtain ⟨g', hg''⟩ := Table.contains_iff.mp (contains_of_transGen h)
        exact absurd (hg'.symm.trans hg'') (Option.some_ne_none g').symm
    | some g' => exact contains_reached hg'
  · rw [if_neg hself]
    refine iff_of_false List.not_mem_nil fun h => hself ?_
    exact (contains_reached hg).mpr h.self

theorem pairwise_circleOf (reach : Table NameSet) (name : String) :
    (circleOf reach name).Pairwise (· < ·) := by
  rw [circleOf]
  split
  · exact List.Pairwise.nil
  · split
    · rename_i names _ _
      apply List.Pairwise.filter
      exact List.pairwise_map.mpr names.ordered
    · exact List.Pairwise.nil

theorem circles_circleProblems (hg : gs.get? name = some g) :
    ∃ members, gs.circleProblems name
        = (if members = [] then [] else [.cycle members]) ∧
      members.Pairwise (· < ·) ∧ ∀ other, other ∈ members ↔ gs.Linked name other := by
  refine ⟨circleOf (Table.map gs.reached gs) name, ?_, pairwise_circleOf _ _,
    fun other => mem_circleOf hg⟩
  rw [circleProblems]
  split <;> simp_all

/-! ### Component by component -/

/-- The groups, cut into strongly connected components: each of them is in one component, together
with the groups that it leads to and that lead to it. -/
structure Components (gs : Groups) (components : List (List String)) : Prop where
  perm_names : components.flatten.Perm gs.names
  mem_iff : ∀ c ∈ components, ∀ a ∈ c, ∀ b,
    b ∈ c ↔ ReflTransGen gs.RefersDefined a b ∧ ReflTransGen gs.RefersDefined b a

/-- Whether a component has a reference inside: if there are several groups in it, or if the only
one refers to itself. -/
def isCircle (gs : Groups) : List String → Bool
  | [] => false
  | [name] => (gs.get? name).any fun g => (gs.defined g).contains name
  | _ :: _ :: _ => true

/-- Blames one group, if it is defined. -/
def blameAt (problem : GroupProblem) (gs : Groups) (name : String) : Groups :=
  match gs.get? name with
  | some g => Table.insert gs name (g.blame problem)
  | none => gs

/-- Blames the groups of a component for their circle. -/
def blameMembers (gs : Groups) (members : List String) : Groups :=
  members.foldl (blameAt (.cycle members)) gs

/-- Marks the groups of the components with a reference inside. -/
def markComponents (gs : Groups) (components : List (List String)) : Groups :=
  ((components.filter gs.isCircle).map (List.mergeSort · (· ≤ ·))).foldl blameMembers gs

theorem get?_blameAt (problem : GroupProblem) (gs : Groups) (name other : String) :
    (blameAt problem gs name).get? other
      = if name = other then (gs.get? other).map (·.blame problem) else gs.get? other := by
  rw [blameAt]
  cases hg : gs.get? name with
  | none =>
      by_cases h : name = other
      · subst h
        simp [hg]
      · simp [h]
  | some g =>
      dsimp only
      rw [Table.get?_insert]
      by_cases h : name = other
      · subst h
        simp [hg]
      · simp [h]

theorem get?_foldl_blameAt {problem : GroupProblem} {names : List String} (h : names.Nodup)
    (gs : Groups) (name : String) :
    (names.foldl (blameAt problem) gs).get? name
      = if name ∈ names then (gs.get? name).map (·.blame problem) else gs.get? name := by
  induction names generalizing gs with
  | nil => rfl
  | cons head rest ih =>
      obtain ⟨hhead, hrest⟩ := List.nodup_cons.mp h
      rw [List.foldl_cons, ih hrest, get?_blameAt]
      by_cases heq : head = name
      · subst heq
        simp [hhead]
      · simp [heq, Ne.symm heq]

theorem get?_foldl_blameMembers_of_notMem {circles : List (List String)}
    (h : circles.flatten.Nodup) (gs : Groups) (hname : name ∉ circles.flatten) :
    (circles.foldl blameMembers gs).get? name = gs.get? name := by
  induction circles generalizing gs with
  | nil => rfl
  | cons members rest ih =>
      rw [List.flatten_cons, List.nodup_append'] at h
      rw [List.flatten_cons, List.mem_append, not_or] at hname
      rw [List.foldl_cons, ih h.2.1 _ hname.2, blameMembers, get?_foldl_blameAt h.1,
        if_neg hname.1]

theorem get?_foldl_blameMembers {circles : List (List String)} (h : circles.flatten.Nodup)
    (gs : Groups) {members : List String} (hmembers : members ∈ circles) (hname : name ∈ members) :
    (circles.foldl blameMembers gs).get? name
      = (gs.get? name).map (·.blame (.cycle members)) := by
  induction circles generalizing gs with
  | nil => exact nomatch hmembers
  | cons first rest ih =>
      rw [List.flatten_cons, List.nodup_append'] at h
      obtain ⟨hfirst, hrest, hdisjoint⟩ := h
      rw [List.foldl_cons]
      rcases List.mem_cons.mp hmembers with rfl | hmembers
      · rw [get?_foldl_blameMembers_of_notMem hrest _ (hdisjoint hname), blameMembers,
          get?_foldl_blameAt hfirst, if_pos hname]
      · have hnot : name ∉ first :=
          fun hmem => hdisjoint hmem (List.mem_flatten_of_mem hmembers hname)
        rw [ih hrest _ hmembers, blameMembers, get?_foldl_blameAt hfirst, if_neg hnot]

theorem isCircle_singleton (hg : gs.get? name = some g) :
    gs.isCircle [name] = true ↔ gs.RefersDefined name name := by
  rw [refersDefined_iff hg, isCircle, hg]
  simp

variable {components : List (List String)} {c : List String}

/-- The component of a group has a reference inside exactly if the group leads back to itself. -/
theorem Components.isCircle_iff (h : gs.Components components) (hc : c ∈ components)
    (hg : gs.get? name = some g) (hname : name ∈ c) :
    gs.isCircle c = true ↔ TransGen gs.RefersDefined name name := by
  have hmem := h.mem_iff c hc name hname
  have hnodup : c.Nodup := by
    have hflatten := h.perm_names.nodup_iff.mpr gs.nodup_names
    exact hflatten.sublist (List.sublist_flatten_of_mem hc)
  cases c with
  | nil => exact nomatch hname
  | cons first rest =>
      cases rest with
      | nil =>
          obtain rfl := List.mem_singleton.mp hname
          rw [isCircle_singleton hg]
          refine ⟨.single, fun hcircle => ?_⟩
          obtain ⟨b, hb, hback⟩ := TransGen.head'_iff.mp hcircle
          obtain rfl := List.mem_singleton.mp ((hmem b).mpr ⟨.single hb, hback⟩)
          exact hb
      | cons second rest =>
          refine iff_of_true rfl ?_
          obtain ⟨other, hother, hne⟩ : ∃ other ∈ first :: second :: rest, other ≠ name := by
            by_contra hall
            push Not at hall
            have hsame := (hall first (by simp)).trans (hall second (by simp)).symm
            exact (List.nodup_cons.mp hnodup).1 (by simp [hsame])
          obtain ⟨hto, hback⟩ := (hmem other).mp hother
          rcases reflTransGen_iff_eq_or_transGen.mp hto with heq | hto
          · exact absurd heq hne
          · exact hto.trans_left hback

theorem Components.mem_iff_linked (h : gs.Components components) (hc : c ∈ components)
    (hname : name ∈ c) (hself : TransGen gs.RefersDefined name name) (other : String) :
    other ∈ c ↔ gs.Linked name other := by
  rw [h.mem_iff c hc name hname]
  constructor
  · rintro ⟨hto, hback⟩
    exact ⟨hself.trans_left hto, TransGen.trans_right hback hself⟩
  · rintro ⟨hto, hback⟩
    exact ⟨hto.to_reflTransGen, hback.to_reflTransGen⟩

theorem Components.circleOf_eq (h : gs.Components components) (hc : c ∈ components)
    (hg : gs.get? name = some g) (hname : name ∈ c)
    (hself : TransGen gs.RefersDefined name name) :
    circleOf (Table.map gs.reached gs) name = c.mergeSort (· ≤ ·) := by
  have hordered := pairwise_circleOf (Table.map gs.reached gs) name
  have hsorted : (c.mergeSort (· ≤ ·)).Pairwise (· ≤ ·) := by
    simpa using @List.pairwise_mergeSort String (fun a b => decide (a ≤ b))
      (by simpa using fun a b c => le_trans) (by simpa using le_total) c
  have hnodup : c.Nodup :=
    (h.perm_names.nodup_iff.mpr gs.nodup_names).sublist (List.sublist_flatten_of_mem hc)
  have hperm : (circleOf (Table.map gs.reached gs) name).Perm (c.mergeSort (· ≤ ·)) := by
    refine List.Perm.trans ?_ (List.mergeSort_perm c _).symm
    rw [List.perm_ext_iff_of_nodup (hordered.imp ne_of_lt) hnodup]
    intro other
    rw [mem_circleOf hg, h.mem_iff_linked hc hname hself]
  exact hperm.eq_of_pairwise (fun a b _ _ => le_antisymm) (hordered.imp le_of_lt) hsorted

theorem nodup_flatten_map_mergeSort (h : components.flatten.Nodup) :
    (components.map (List.mergeSort · (· ≤ ·))).flatten.Nodup := by
  have hperm : (components.map (List.mergeSort · (· ≤ ·))).flatten.Perm components.flatten := by
    rw [← List.flatMap_def, ← List.flatMap_id]
    exact List.Perm.flatMap_left _ fun c _ => List.mergeSort_perm c _
  exact hperm.nodup_iff.mpr h

/-- Marking the components that have a reference inside is marking the groups that lead back to
themselves, whatever the order of the components and of the groups in them. -/
theorem get?_markComponents (h : gs.Components components) (name : String) :
    (gs.markComponents components).get? name = gs.markCycles.get? name := by
  have hflatten := h.perm_names.nodup_iff.mpr gs.nodup_names
  have hnodup : ((components.filter gs.isCircle).map (List.mergeSort · (· ≤ ·))).flatten.Nodup :=
    nodup_flatten_map_mergeSort (hflatten.sublist List.filter_sublist.flatten)
  have hmarked : name ∈ ((components.filter gs.isCircle).map (List.mergeSort · (· ≤ ·))).flatten ↔
      ∃ c ∈ components, gs.isCircle c = true ∧ name ∈ c := by
    simp [List.mem_flatten, and_assoc]
  rw [get?_markCycles, markComponents]
  cases hg : gs.get? name with
  | none =>
      rw [get?_foldl_blameMembers_of_notMem hnodup gs, hg]
      · rfl
      · rw [hmarked]
        rintro ⟨c, hc, -, hname⟩
        have hdefined := h.perm_names.mem_iff.mp (List.mem_flatten_of_mem hc hname)
        exact Table.get?_eq_none_iff.mp hg hdefined
  | some g =>
      by_cases hself : TransGen gs.RefersDefined name name
      · have hdefined : name ∈ gs.names :=
          Table.mem_names_iff.mpr (Table.contains_iff.mpr ⟨g, hg⟩)
        obtain ⟨c, hc, hname⟩ := List.mem_flatten.mp (h.perm_names.mem_iff.mpr hdefined)
        have hsorted : c.mergeSort (· ≤ ·)
            ∈ (components.filter gs.isCircle).map (List.mergeSort · (· ≤ ·)) :=
          List.mem_map_of_mem
            (List.mem_filter.mpr ⟨hc, (h.isCircle_iff hc hg hname).mpr hself⟩)
        have hmem : name ∈ c.mergeSort (· ≤ ·) := List.mem_mergeSort.mpr hname
        rw [get?_foldl_blameMembers hnodup gs hsorted hmem, hg, circleProblems,
          h.circleOf_eq hc hg hname hself]
        split
        · rename_i hnil
          exact absurd (hnil ▸ hmem) List.not_mem_nil
        · rfl
      · have hproblems : gs.circleProblems name = [] := by
          rw [circleProblems_eq_nil, circleOf_map_reached hg, ← transGen_self_iff]
          exact hself
        rw [get?_foldl_blameMembers_of_notMem hnodup gs, hg, hproblems]
        · exact congrArg some (congrArg (Group.mk _ _) (List.append_nil _).symm)
        · rw [hmarked]
          rintro ⟨c, hc, hcircle, hname⟩
          exact hself ((h.isCircle_iff hc hg hname).mp hcircle)

/-! ### The marks that follow -/

theorem circles_markReferences {turns : Nat} (hg : (gs.markReferences turns).get? name = some g) :
    ∃ before, gs.get? name = some before ∧ g.circles = before.circles := by
  induction turns generalizing gs with
  | zero => exact ⟨g, hg, rfl⟩
  | succ turns ih =>
      rw [markReferences] at hg
      split at hg
      · exact ⟨g, hg, rfl⟩
      · obtain ⟨marked, hmarked, hcircles⟩ := ih hg
        rw [Table.get?_map] at hmarked
        obtain ⟨before, hbefore, rfl⟩ := Option.map_eq_some_iff.mp hmarked
        refine ⟨before, hbefore, hcircles.trans ?_⟩
        rw [blameReferences_eq, Group.circles_blameAll, List.append_right_eq_self,
          List.filter_eq_nil_iff]
        rintro _ hmem
        obtain ⟨b, -, rfl⟩ := List.mem_map.mp hmem
        exact Bool.false_ne_true

theorem Extends.refersDefined {gs' : Groups} (h : gs.Extends gs') :
    gs'.RefersDefined = gs.RefersDefined := by
  funext a b
  rw [RefersDefined, RefersDefined, h.refers, h.contains]

theorem circles_load {tree : FileTree} {root : Path} {rules : PathRules} {files : List GroupFile}
    (hg : (GroupSet.load tree root rules files).1.groups.get? name = some g) :
    ∃ members, g.circles = (if members = [] then [] else [.cycle members]) ∧
      members.Pairwise (· < ·) ∧
      ∀ other, other ∈ members ↔
        (GroupSet.load tree root rules files).1.groups.Linked name other := by
  have hext := extends_marked (read tree root files)
  rw [groups_load] at hg ⊢
  obtain ⟨searched, hsearched, hcircles⟩ := circles_markReferences hg
  rw [get?_markCycles] at hsearched
  obtain ⟨before, hbefore, rfl⟩ := Option.map_eq_some_iff.mp hsearched
  obtain ⟨members, hproblems, hordered, hmem⟩ := circles_circleProblems hbefore
  refine ⟨members, ?_, hordered, fun other => ?_⟩
  · rw [hcircles, Group.circles_blameAll, circles_read hbefore, hproblems]
    split <;> rfl
  · rw [hmem, Linked, Linked, hext.refersDefined]

end Groups

namespace GroupSet

/-- After loading, a group has a message that speaks of a circle exactly if it leads back to itself
by references to defined groups. Then it has one such message, which names in order the groups that
it leads to and that lead to it. -/
theorem circleMessages_load (tree : FileTree) (root : Path) (rules : PathRules)
    (files : List GroupFile) {name : String} {g : Group}
    (hg : (load tree root rules files).1.groups.get? name = some g) :
    let gs := (load tree root rules files).1.groups
    (g.circleMessages ≠ [] ↔ TransGen gs.RefersDefined name name) ∧
      (TransGen gs.RefersDefined name name → ∃ members : List String,
        g.circleMessages = ["cyclic group reference: " ++ ", ".intercalate members] ∧
        members.Pairwise (· < ·) ∧ ∀ other, other ∈ members ↔
          TransGen gs.RefersDefined name other ∧ TransGen gs.RefersDefined other name) := by
  intro gs
  obtain ⟨members, hcircles, hordered, hmem⟩ := Groups.circles_load hg
  have hself : members ≠ [] ↔ TransGen gs.RefersDefined name name := by
    constructor
    · intro hne
      obtain ⟨other, hother⟩ := List.exists_mem_of_ne_nil members hne
      exact ((hmem other).mp hother).self
    · intro h
      exact List.ne_nil_of_mem ((hmem name).mpr ⟨h, h⟩)
  have hmessages : g.circleMessages
      = if members = [] then [] else ["cyclic group reference: " ++ ", ".intercalate members] := by
    rw [Group.circleMessages_eq, hcircles]
    split <;> rfl
  refine ⟨?_, fun h => ⟨members, ?_, hordered, hmem⟩⟩
  · rw [← hself, hmessages]
    split <;> simp_all
  · rw [hmessages, if_neg (hself.mpr h)]

/-- Two groups that refer to each other, one of them to itself as well and through an exclusion, and
a group beside the circle. -/
def twoOnCircle : FileTree :=
  .folder [("G", .file (.text "a = :b :b\nb = -:a :b :no\nc = :a\n"))]

theorem circleMessages_twoOnCircle :
    let gs := (load twoOnCircle ⟨"/"⟩ (.new [] []) [⟨⟨"/G"⟩, false⟩]).1.groups
    ∃ g, gs.get? "b" = some g ∧ TransGen gs.RefersDefined "b" "b" ∧
      g.circleMessages = ["cyclic group reference: a, b"] ∧
      ∃ members : List String,
        g.circleMessages = ["cyclic group reference: " ++ ", ".intercalate members] ∧
        members.Pairwise (· < ·) ∧ ∀ other, other ∈ members ↔
          TransGen gs.RefersDefined "b" other ∧ TransGen gs.RefersDefined other "b" := by
  intro gs
  let g : Group := ⟨[⟨true, .group "a"⟩, ⟨false, .group "b"⟩, ⟨false, .group "no"⟩], [⟨"/G"⟩],
    [.cycle ["a", "b"]]⟩
  have hg : gs.get? "b" = some g := by decide +kernel
  have hself : TransGen gs.RefersDefined "b" "b" :=
    .single ⟨⟨g, hg, by simp [g, Group.references]⟩, Table.contains_iff.mpr ⟨g, hg⟩⟩
  exact ⟨g, hg, hself, by decide +kernel, (circleMessages_load _ _ _ _ hg).2 hself⟩

end GroupSet

end TestSelection
