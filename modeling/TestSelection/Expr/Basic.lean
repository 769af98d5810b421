import TestSelection.Decimal.Basic
import TestSelection.Table

/-!
Requirement expressions: names of properties, literals, and operators on them. A tree does not say
where its parentheses stood.
-/

namespace TestSelection

inductive BinaryOp
  | or | and
  | eq | ne | lt | le | gt | ge
  | add | sub
  | mul | div | rem
deriving DecidableEq, Inhabited, Repr

namespace BinaryOp

def symbol : BinaryOp → String
  | .or => "|"
  | .and => "&"
  | .eq => "=="
  | .ne => "!="
  | .lt => "<"
  | .le => "<="
  | .gt => ">"
  | .ge => ">="
  | .add => "+"
  | .sub => "-"
  | .mul => "*"
  | .div => "/"
  | .rem => "%"

/-- The five levels of binding, the loosest first. -/
inductive Level
  | disjunction | conjunction | comparison | sum | product
deriving DecidableEq, Repr

/-- How tightly an operator binds. -/
def level : BinaryOp → Level
  | .or => .disjunction
  | .and => .conjunction
  | .eq | .ne | .lt | .le | .gt | .ge => .comparison
  | .add | .sub => .sum
  | .mul | .div | .rem => .product

end BinaryOp

/-- A requirement expression. -/
inductive Expr
  /-- A property such as `os.family`. -/
  | name (name : String)
  /-- A quoted text, its escapes resolved. -/
  | text (text : String)
  /-- A number, its size letter multiplied out. -/
  | number (value : Decimal)
  /-- One of the words `true` and `false`. -/
  | bool (value : Bool)
  /-- Logical negation. -/
  | not (operand : Expr)
  /-- Arithmetic negation. -/
  | neg (operand : Expr)
  | binary (op : BinaryOp) (left right : Expr)
deriving DecidableEq, Inhabited

namespace Expr

def addNames (s : NameSet) : Expr → NameSet
  | name n => s.add n
  | text _ | number _ | bool _ => s
  | not e | neg e => e.addNames s
  | binary _ l r => r.addNames (l.addNames s)

/-- The properties that an expression refers to. -/
def names (e : Expr) : NameSet := e.addNames Table.empty

end Expr

end TestSelection
