import TestSelection.Decimal.Notation
import TestSelection.Expr.Token

/-!
How expressions are written: their tokens with one blank between them. An operand has parentheses
exactly where it binds looser than its place asks for: the left operand of an operator may bind as
loosely as the operator itself, the right one has to bind tighter, and both operands of a comparison
have to bind tighter than a comparison.
-/

namespace TestSelection

/-- The place of a level in the order of binding; the loosest level is the first. -/
def BinaryOp.Level.rank : BinaryOp.Level → Nat
  | disjunction => 1
  | conjunction => 2
  | comparison => 3
  | sum => 4
  | product => 5

/-- How loosely the left operand of an operator may bind. -/
def BinaryOp.leftRank (op : BinaryOp) : Nat :=
  if op.level = .comparison then op.level.rank + 1 else op.level.rank

/-- How loosely the right operand of an operator may bind. -/
def BinaryOp.rightRank (op : BinaryOp) : Nat := op.level.rank + 1

namespace Token

/-- A character inside a quoted text. -/
def escapedChar (c : Char) : List Char := if c = '"' ∨ c = '\\' then ['\\', c] else [c]

def spelling : Token → List Char
  | name raw | number raw => raw.toList
  | text t => '"' :: t.toList.flatMap escapedChar ++ ['"']
  | bang => ['!']
  | openParen => ['(']
  | closeParen => [')']
  | operator op => op.symbol.toList

end Token

namespace Expr

/-- The unary operators bind tighter than all others. -/
def unaryRank : Nat := 6

/-- Parentheses around tokens of the given rank where the place asks for a higher one. -/
def fence (place rank : Nat) (tokens : List Token) : List Token :=
  if rank < place then .openParen :: tokens ++ [.closeParen] else tokens

/-- The tokens of an expression at a place that asks for a rank. -/
def tokensAt (place : Nat) : Expr → List Token
  | name n => [.name n]
  | text t => [.text t]
  | number d => [.number d.plain]
  | bool b => [.name (if b then "true" else "false")]
  | not e => fence place unaryRank (.bang :: e.tokensAt unaryRank)
  | neg e => fence place unaryRank (.operator .sub :: e.tokensAt unaryRank)
  | binary op l r =>
    fence place op.level.rank
      (l.tokensAt op.leftRank ++ .operator op :: r.tokensAt op.rightRank)

def tokens (e : Expr) : List Token := e.tokensAt 0

def written (e : Expr) : String :=
  String.ofList ([' '].intercalate (e.tokens.map Token.spelling))

end Expr

end TestSelection
