import TestSelection.Decimal.Notation
import TestSelection.Expr.Basic
import TestSelection.Text.Quoted

/-!
Outlines: a written form of expressions in which every operator stands before its operands and has
parentheses of its own, so that the shape of the tree can be read off.
-/

namespace TestSelection

namespace Expr

def outline : Expr → String
  | name n => n
  | text t => Text.quoted t
  | number d => "#" ++ d.plain
  | bool b => if b then "?true" else "?false"
  | not e => "(! " ++ e.outline ++ ")"
  | neg e => "(neg " ++ e.outline ++ ")"
  | binary op l r => "(" ++ op.symbol ++ " " ++ l.outline ++ " " ++ r.outline ++ ")"

end Expr

end TestSelection
