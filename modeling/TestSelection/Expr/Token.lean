import TestSelection.Expr.Basic
import TestSelection.Expr.SyntaxError
import TestSelection.Text

/-!
The tokens of an expression's text. Only blank, tab, line feed and carriage return may stand between
tokens. Each token is the longest one that can be read at its place, and is kept with the number of
bytes before it.
-/

namespace TestSelection

/-- A token; a minus is a token whether it has one operand or two. -/
inductive Token
  | name (raw : String)
  | number (raw : String)
  /-- A quoted text, its escapes resolved. -/
  | text (text : String)
  | bang
  | openParen
  | closeParen
  | operator (op : BinaryOp)
deriving DecidableEq

namespace Token

/-- How a message shows a token. -/
def describe : Token → String
  | name raw | number raw => raw
  | text t => "\"" ++ t ++ "\""
  | bang => "!"
  | openParen => "("
  | closeParen => ")"
  | operator op => op.symbol

/-- The characters that may stand between tokens. -/
def isGap (c : Char) : Bool := c == ' ' || c == '\t' || c == '\n' || c == '\r'

/-- What a name starts with. -/
def startsName (c : Char) : Bool := c.isAlpha || c == '_'

/-- What a name goes on with. -/
def continuesName (c : Char) : Bool := Chars.isWordChar c || c == '.'

/-- What a number goes on with. -/
def continuesNumber (c : Char) : Bool := c.isAlphanum || c == '.'

/-- A quoted text after its opening quote, and the number of characters with the closing quote. A
backslash is an escape only before a quote or a backslash. -/
def quoted? : List Char → Option (List Char × Nat)
  | [] => none
  | '"' :: _ => some ([], 1)
  | '\\' :: '"' :: s => (quoted? s).map fun (t, n) => ('"' :: t, n + 2)
  | '\\' :: '\\' :: s => (quoted? s).map fun (t, n) => ('\\' :: t, n + 2)
  | c :: s => (quoted? s).map fun (t, n) => (c :: t, n + 1)

/-- One of two tokens, the longer if an equals sign follows. -/
def withEquals (longer shorter : Token) : List Char → Token × Nat
  | '=' :: _ => (longer, 1)
  | _ => (shorter, 0)

/-- The token that starts with a character, and how many of the characters after it belong to it. -/
def read (position : Nat) (c : Char) (s : List Char) : Except SyntaxError (Token × Nat) :=
  match c with
  | '(' => .ok (openParen, 0)
  | ')' => .ok (closeParen, 0)
  | '&' => .ok (operator .and, 0)
  | '|' => .ok (operator .or, 0)
  | '+' => .ok (operator .add, 0)
  | '-' => .ok (operator .sub, 0)
  | '*' => .ok (operator .mul, 0)
  | '/' => .ok (operator .div, 0)
  | '%' => .ok (operator .rem, 0)
  | '!' => .ok (withEquals (operator .ne) bang s)
  | '<' => .ok (withEquals (operator .le) (operator .lt) s)
  | '>' => .ok (withEquals (operator .ge) (operator .gt) s)
  | '=' =>
    match s with
    | '=' :: _ => .ok (operator .eq, 1)
    | _ => .error (.unexpected .doubleEquals "=" position)
  | '"' =>
    match quoted? s with
    | some (t, n) => .ok (text (String.ofList t), n)
    | none => .error (.unterminatedText position)
  | c =>
    if c.isDigit then
      let more := s.takeWhile continuesNumber
      .ok (number (String.ofList (c :: more)), more.length)
    else if startsName c then
      let more := s.takeWhile continuesName
      .ok (name (String.ofList (c :: more)), more.length)
    else .error (.unexpected .token (String.singleton c) position)

end Token

/-- A token and the number of bytes before it. -/
structure LocatedToken where
  token : Token
  position : Nat
deriving DecidableEq

namespace LocatedToken

/-- The tokens of a text that starts at a position, where the first `inside` characters belong to a
token that has been read already. -/
def readAll (position inside : Nat) : List Char → Except SyntaxError (List LocatedToken)
  | [] => .ok []
  | c :: s =>
    match inside with
    | n + 1 => readAll (position + c.utf8Size) n s
    | 0 =>
      if Token.isGap c then readAll (position + c.utf8Size) 0 s
      else do
        let (token, more) ← Token.read position c s
        let rest ← readAll (position + c.utf8Size) more s
        return ⟨token, position⟩ :: rest

def ofText (text : String) : Except SyntaxError (List LocatedToken) := readAll 0 0 text.toList

end LocatedToken

end TestSelection
