import TestSelection.Proofs.Group.Definition

/-!
Which groups are valid after a set has been loaded. The passes over the groups (reading, circles,
turns of blame) come down to one condition on the groups that a group leads to: each of them is
defined, has no problem of its own and stands on no circle, and each reference among them goes to a
group with an entry.
-/

namespace TestSelection

open Relation

namespace GroupSet

/-- A group is valid after loading exactly if everything that it leads to, itself included, is in
order by itself and refers to groups with entries only. -/
theorem valid_load_iff (tree : FileTree) (root : Path) (rules : PathRules) (files : List GroupFile)
    (name : String) :
    (load tree root rules files).1.groups.Valid name ↔
      ∀ a, ReflTransGen (load tree root rules files).1.groups.Refers name a →
        (∃ d ∈ definitions tree files, d.2.key = a) ∧
        (∀ d ∈ definitions tree files, d.2.key = a → ¬ Group.LocalProblem tree root d) ∧
        ¬ TransGen (load tree root rules files).1.groups.Refers a a ∧
        ∀ b, (load tree root rules files).1.groups.Refers a b →
          (load tree root rules files).1.groups.HasEntry b := by
  have hext := Groups.extends_marked (Groups.read tree root files)
  rw [Groups.groups_load, hext.refers, hext.hasEntry, Groups.valid_marked]
  simp only [Groups.valid_read, and_assoc]

end GroupSet

end TestSelection
