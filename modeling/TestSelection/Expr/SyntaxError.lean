/-!
What can be wrong with the text of an expression, and how it is said. Every position is a number of
bytes before the place in question.
-/

namespace TestSelection

/-- What would have been in order at a place. -/
inductive Expectation
  | doubleEquals | token | propertyName | operand | closingParenthesis
deriving DecidableEq, Repr

def Expectation.text : Expectation → String
  | doubleEquals => "=="
  | token => "name, literal, or operator"
  | propertyName => "property name"
  | operand => "name, literal, or `(`"
  | closingParenthesis => "`)`"

def maxExprBytes : Nat := 65536

/-- The most parentheses and unary operators that may stand around a token. -/
def maxExprNesting : Nat := 32

/-- A fault that the text alone shows, or the text and the names that it may use. -/
inductive SyntaxError
  | empty
  | tooLarge (bytes : Nat)
  /-- One more parenthesis or unary operator than may be open at once. -/
  | tooDeep (position : Nat)
  | unexpected (expected : Expectation) (found : String) (position : Nat)
  | unterminatedText (position : Nat)
  | invalidNumber (raw : String) (position : Nat)
  /-- A token that no complete expression can be followed by. -/
  | trailing (position : Nat)
  | unknownName (name : String)
deriving DecidableEq, Repr

def SyntaxError.message : SyntaxError → String
  | empty => "expression is empty"
  | tooLarge bytes => s!"expression exceeds size limit: {bytes} bytes (max {maxExprBytes})"
  | tooDeep position =>
    s!"expression nesting exceeds limit: depth {maxExprNesting + 1} (max {maxExprNesting})"
      ++ s!" at {position}"
  | unexpected expected found position =>
    s!"unexpected token `{found}` at {position}, expected {expected.text}"
  | unterminatedText position => s!"unterminated string literal at {position}"
  | invalidNumber raw position => s!"invalid number `{raw}` at {position}"
  | trailing position => s!"unexpected trailing input at {position}"
  | unknownName name => s!"invalid name: {name}"

end TestSelection
