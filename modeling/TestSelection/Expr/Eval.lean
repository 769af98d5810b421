import TestSelection.Context.Basic
import TestSelection.Decimal.Equality
import TestSelection.Decimal.Notation
import TestSelection.Expr.Parser

/-!
Evaluation. A value is a text until an operator needs something else of it. Two values are equal as
numbers if both are numbers, else as texts; orderings and arithmetic need numbers; the logical
operators need truth, which every value has.
-/

namespace TestSelection

/-- Why an evaluation has no result. -/
inductive Fault
  /-- A fact that is referred to could not be determined. -/
  | undetermined (name reason : String)
  /-- An operator needs a number and has something else. -/
  | notNumeric (op : BinaryOp) (value : String)
  | divisionByZero
  /-- The text is no expression. -/
  | malformed (error : SyntaxError)
deriving DecidableEq

def Fault.message : Fault → String
  | undetermined name reason => s!"error evaluating property {name}: {reason}"
  | notNumeric op value => s!"invalid numeric value for `{op.symbol}`: {value}"
  | divisionByZero => "division by zero"
  | malformed error => s!"syntax error: {error.message}"

/-- What an expression comes to. -/
inductive Value
  | bool (value : Bool)
  | text (text : String)
  | number (value : Decimal)
deriving DecidableEq

namespace Value

def render : Value → String
  | bool b => if b then "true" else "false"
  | text t => t
  | number d => d.text

/-- A number other than zero is true, and a text unless, blanks around it apart, it is empty or one
of the words `false` and `null`. -/
def truth : Value → Bool
  | bool b => b
  | text t =>
    let t := Text.trim t
    !(t == "" || t == "false" || t == nullText)
  | number d => !d.isZero

/-- The number that a value is or is written as; the truth values are no numbers. -/
def number? : Value → Option Decimal
  | bool _ => none
  | text t => Decimal.ofText? t
  | number d => some d

/-- The number that an operator needs. -/
def toNumber (op : BinaryOp) (v : Value) : Except Fault Decimal :=
  match v.number? with
  | some d => .ok d
  | none => .error (.notNumeric op v.render)

/-- Equal as numbers if both are numbers, else equal as texts. -/
def same (v w : Value) : Bool :=
  match v.number?, w.number? with
  | some a, some b => a.equals b
  | _, _ => v.render == w.render

end Value

namespace Expr

/-- The arithmetic operators and the orderings, on numbers. -/
def compute (op : BinaryOp) (a b : Decimal) : Except Fault Value :=
  match op with
  | .lt => .ok (.bool (a.less b))
  | .le => .ok (.bool (!b.less a))
  | .gt => .ok (.bool (b.less a))
  | .ge => .ok (.bool (!a.less b))
  | .add => .ok (.number (a + b))
  | .sub => .ok (.number (a - b))
  | .mul => .ok (.number (a * b))
  | .div => if b.isZero then .error .divisionByZero else .ok (.number (a / b))
  | .rem => if b.isZero then .error .divisionByZero else .ok (.number (a % b))
  | .or | .and | .eq | .ne => .ok (.bool false)

/-- The value of a name; one without an entry has the value of `null`. -/
def lookUp (c : Context) (name : String) : Except Fault Value :=
  match c.get? name with
  | some (.value t) => .ok (.text t)
  | some (.unknown reason) => .error (.undetermined name reason)
  | none => .ok (.text nullText)

/-- What an expression comes to in a context. Operands are taken from left to right; the right side
of `&` and `|` only if the left side does not decide; an ordering or an arithmetic operator wants
its left side to be a number before it looks at its right side. -/
def eval (c : Context) : Expr → Except Fault Value
  | name n => lookUp c n
  | text t => .ok (.text t)
  | number d => .ok (.number d)
  | bool b => .ok (.bool b)
  | not e => do return .bool (!(← e.eval c).truth)
  | neg e => do
    let v ← e.eval c
    return .number (- (← v.toNumber .sub))
  | binary op l r =>
    match op with
    | .and => do
      let left ← l.eval c
      if left.truth then return .bool (← r.eval c).truth else return .bool false
    | .or => do
      let left ← l.eval c
      if left.truth then return .bool true else return .bool (← r.eval c).truth
    | .eq => do
      let left ← l.eval c
      let right ← r.eval c
      return .bool (left.same right)
    | .ne => do
      let left ← l.eval c
      let right ← r.eval c
      return .bool (!left.same right)
    | op => do
      let left ← l.eval c
      let a ← left.toNumber op
      let right ← r.eval c
      let b ← right.toNumber op
      compute op a b

def holds (c : Context) (e : Expr) : Except Fault Bool := do return (← e.eval c).truth

/-- Whether the expression that a text stands for holds in a context. -/
def textHolds (c : Context) (text : String) : Except Fault Bool :=
  match parse text with
  | .ok e => e.holds c
  | .error error => .error (.malformed error)

end Expr

end TestSelection
