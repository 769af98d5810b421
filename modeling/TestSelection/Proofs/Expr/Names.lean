import TestSelection.Expr.Names
import TestSelection.Proofs.Table

/-!
The names of an expression. Those of an operator are the names of its operands, and they are known
exactly if each of them is.
-/

namespace TestSelection

namespace Expr

theorem contains_addNames (e : Expr) (s : NameSet) (name : String) :
    (e.addNames s).contains name = true ↔
      s.contains name = true ∨ e.names.contains name = true := by
  induction e generalizing s with
  | name n =>
      rw [names, addNames, addNames, NameSet.contains_add, NameSet.contains_add]
      simp [Table.contains, or_comm]
  | text | number | bool => simp [names, addNames, Table.contains]
  | not e ih | neg e ih => exact ih s
  | binary op l r ihl ihr =>
      rw [names, addNames, addNames, ihr, ihl, ihr (l.addNames Table.empty), or_assoc]
      rfl

theorem contains_names_name {n name : String} :
    (Expr.name n).names.contains name = true ↔ n = name := by
  rw [names, addNames, NameSet.contains_add]
  simp [Table.contains]

theorem contains_names_binary {op : BinaryOp} {l r : Expr} {name : String} :
    (binary op l r).names.contains name = true ↔
      l.names.contains name = true ∨ r.names.contains name = true :=
  contains_addNames r l.names name

theorem checkNames_eq_ok {knows : String → Bool} {e : Expr} :
    e.checkNames knows = .ok () ↔ ∀ name, e.names.contains name = true → knows name = true := by
  have hfind : e.names.names.find? (!knows ·) = none ↔
      ∀ name, e.names.contains name = true → knows name = true := by
    simp [List.find?_eq_none, Table.mem_names_iff]
  rw [← hfind, checkNames]
  cases e.names.names.find? (!knows ·) with
  | none => simp
  | some unknown => simp

end Expr

end TestSelection
