import TestSelection.Decimal.Notation
import TestSelection.Expr.Token

/-!
From tokens to expressions. The levels of binding are, the loosest first, `|`, `&`, the comparisons,
sums and products; below them stand the unary operators, names, literals and parentheses. Operators
of one level are grouped to the left, and of the comparisons there is at most one at a place.

A parser for one level is made from a parser for the next tighter one. The operands at the bottom
take the number of parentheses and unary operators that may still be opened, and this is what
the recursion goes down on.
-/

namespace TestSelection

namespace Expr

/-- Reads an expression from the front of the tokens and leaves the rest. -/
abbrev Parser := List LocatedToken → Except SyntaxError (Expr × List LocatedToken)

/-- Goes on after a left operand, as long as an operator of the level follows. Each turn uses up a
token or more, so the tokens that stood there at the start bound the turns. -/
def chainFrom (level : BinaryOp.Level) (next : Parser) : List LocatedToken → Expr → Parser
  | [], left, tokens => .ok (left, tokens)
  | _ :: turns, left, tokens =>
    match tokens with
    | ⟨.operator op, _⟩ :: rest =>
      if op.level = level then do
        let (right, rest) ← next rest
        chainFrom level next turns (.binary op left right) rest
      else .ok (left, tokens)
    | _ => .ok (left, tokens)

/-- Operands with operators of one level between them, grouped to the left. -/
def chain (level : BinaryOp.Level) (next : Parser) : Parser := fun tokens => do
  let (first, rest) ← next tokens
  chainFrom level next rest first rest

/-- An operand, or two with a comparison between them. -/
def comparison (next : Parser) : Parser := fun tokens => do
  let (left, rest) ← next tokens
  match rest with
  | ⟨.operator op, _⟩ :: after =>
    if op.level = .comparison then do
      let (right, rest) ← next after
      return (.binary op left right, rest)
    else return (left, rest)
  | _ => return (left, rest)

/-- All levels over the given operands. -/
def levels (operand : Parser) : Parser :=
  chain .disjunction <| chain .conjunction <| comparison <| chain .sum <| chain .product operand

/-- The place of the next token and how it is shown; after the last token, the end of a text of
`size` bytes. -/
def upcoming (size : Nat) : List LocatedToken → String × Nat
  | [] => ("end of input", size)
  | ⟨token, position⟩ :: _ => (token.describe, position)

/-- The complaint that something else should come next. -/
def unexpected (size : Nat) (expected : Expectation) (tokens : List LocatedToken) : SyntaxError :=
  let (found, position) := upcoming size tokens
  .unexpected expected found position

/-- Whether a name neither ends in a point nor has two points in a row. -/
def isPropertyName : List Char → Bool
  | [] => true
  | ['.'] => false
  | '.' :: '.' :: _ => false
  | _ :: s => isPropertyName s

/-- A name, a literal or one of the words `true` and `false`. -/
def leaf (size : Nat) : Parser
  | ⟨.name raw, position⟩ :: rest =>
    if raw = "true" then .ok (.bool true, rest)
    else if raw = "false" then .ok (.bool false, rest)
    else if isPropertyName raw.toList then .ok (.name raw, rest)
    else .error (.unexpected .propertyName raw position)
  | ⟨.number raw, position⟩ :: rest =>
    match Decimal.ofText? raw with
    | some value => .ok (.number value, rest)
    | none => .error (.invalidNumber raw position)
  | ⟨.text t, _⟩ :: rest => .ok (.text t, rest)
  | tokens => .error (unexpected size .operand tokens)

/-- Expects a closing parenthesis after an expression. -/
def closed (size : Nat) : Expr × List LocatedToken → Except SyntaxError (Expr × List LocatedToken)
  | (e, ⟨.closeParen, _⟩ :: rest) => .ok (e, rest)
  | (_, tokens) => .error (unexpected size .closingParenthesis tokens)

/-- Unary operators, parentheses and leaves, where `depth` more parentheses and unary operators may
be open at once. -/
def operand (size : Nat) : Nat → Parser
  | 0 => fun tokens =>
    match tokens with
    | ⟨.bang, position⟩ :: _ | ⟨.operator .sub, position⟩ :: _ | ⟨.openParen, position⟩ :: _ =>
      .error (.tooDeep position)
    | _ => leaf size tokens
  | depth + 1 => fun tokens =>
    match tokens with
    | ⟨.bang, _⟩ :: rest => do
      let (e, rest) ← operand size depth rest
      return (.not e, rest)
    | ⟨.operator .sub, _⟩ :: rest => do
      let (e, rest) ← operand size depth rest
      return (.neg e, rest)
    | ⟨.openParen, _⟩ :: rest => levels (operand size depth) rest >>= closed size
    | _ => leaf size tokens

/-- Reads all tokens as one expression. -/
def ofTokens (size : Nat) (tokens : List LocatedToken) : Except SyntaxError Expr := do
  match ← levels (operand size maxExprNesting) tokens with
  | (e, []) => return e
  | (_, ⟨_, position⟩ :: _) => throw (.trailing position)

def parse (text : String) : Except SyntaxError Expr := do
  let size := text.utf8ByteSize
  if maxExprBytes < size then throw (.tooLarge size)
  match ← LocatedToken.ofText text with
  | [] => throw .empty
  | tokens => ofTokens size tokens

end Expr

end TestSelection
