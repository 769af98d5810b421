import TestSelection.Decimal.Notation
import TestSelection.Toml.Scalar

/-!
JSON documents: texts, numbers, the three words, lists and objects, with blanks between them. Each
reader takes the text behind the opening mark and leaves the rest; `none` says that the document is
wrong. An object is read as the table of its members in their order, also where names repeat.
-/

namespace TestSelection.Json

open Toml (Read hexValue? withChar)

/-- A blank between the parts of a document. -/
def isBlank (c : Char) : Bool := c == ' ' || c == '\t' || c == '\n' || c == '\r'

def dropBlanks (s : List Char) : List Char := s.dropWhile isBlank

/-! ### Texts -/

/-- The number that the next four hexadecimal digits stand for. -/
def fourDigits (s : List Char) : Option (Nat × List Char) :=
  match s with
  | a :: b :: c :: d :: rest => do
    let n ← [a, b, c, d].foldlM (fun n c => (hexValue? c).map (16 * n + ·)) 0
    return (n, rest)
  | _ => none

/-- The first number of a pair that stands for one character. -/
def isHighHalf (n : Nat) : Bool := 0xD800 ≤ n && n < 0xDC00

/-- The second number of a pair that stands for one character. -/
def isLowHalf (n : Nat) : Bool := 0xDC00 ≤ n && n < 0xE000

/-- A character written by its number, or by a pair of numbers neither of which may stand alone. -/
def numberedChar (s : List Char) : Option (Char × List Char) := do
  let (n, rest) ← fourDigits s
  if isHighHalf n then
    match rest with
    | '\\' :: 'u' :: rest =>
      let (m, rest) ← fourDigits rest
      if isLowHalf m then
        return (Char.ofNat (0x10000 + 0x400 * (n - 0xD800) + (m - 0xDC00)), rest)
      else none
    | _ => none
  else if isLowHalf n then none
  else return (Char.ofNat n, rest)

/-- What a backslash and the text behind it stand for. -/
def escape : List Char → Read Char
  | '"' :: s => some ('"', s)
  | '\\' :: s => some ('\\', s)
  | '/' :: s => some ('/', s)
  | 'b' :: s => some ('\x08', s)
  | 'f' :: s => some ('\x0c', s)
  | 'n' :: s => some ('\n', s)
  | 'r' :: s => some ('\r', s)
  | 't' :: s => some ('\t', s)
  | 'u' :: s => numberedChar s
  | _ => none

/-- A text up to the closing quote; control characters have to be written with a backslash. Each
turn uses up a character of `turns` and one or more of the text. -/
def text : List Char → List Char → Read (List Char)
  | [], _ => none
  | _ :: turns, s =>
    match s with
    | [] => none
    | '"' :: rest => some ([], rest)
    | '\\' :: rest =>
      match escape rest with
      | some (c, rest) => withChar c (text turns rest)
      | none => none
    | c :: rest => if c.toNat < 32 then none else withChar c (text turns rest)

/-! ### Numbers and words -/

/-- Digits without a needless zero in front. -/
def isWhole (s : List Char) : Bool :=
  Decimal.isDigits s && (s.head? != some '0' || s.length == 1)

/-- The digits of a whole number and of a fraction. -/
def mantissa? (s : List Char) : Option (List Char × List Char) :=
  match Chars.cut '.' s with
  | some (whole, fraction) =>
    if isWhole whole && Decimal.isDigits fraction then some (whole, fraction) else none
  | none => if isWhole s then some (s, []) else none

/-- An exponent with or without a sign. -/
def exponent? (s : List Char) : Option Int :=
  let (negative, digits) := Toml.splitSign s
  if Decimal.isDigits digits then
    let n : Int := Chars.natOfDigits digits
    some (if negative then -n else n)
  else none

/-- Whether a whole number fits into sixty-four bits, with or without a sign. -/
def fitsInt (n : Int) : Bool := -9223372036854775808 ≤ n && n ≤ 18446744073709551615

/-- A number without its sign. A whole number that does not fit is kept as one with a fraction, and
so is the negative zero; what would be rounded to infinity is wrong. -/
def unsigned? (negative : Bool) (s : List Char) : Option ConfigValue := do
  let (m, exponent) ← match Chars.cutBy (fun c => c == 'e' || c == 'E') s with
    | some (m, e) => (exponent? e).map fun n => (m, some n)
    | none => some (s, none)
  let (whole, fraction) ← mantissa? m
  let unscaled := Chars.natOfDigits (whole ++ fraction)
  let n : Int := if negative then -unscaled else unscaled
  if exponent.isNone && fraction.isEmpty && fitsInt n && !(negative && unscaled == 0) then
    return .int n
  else if Toml.isInfinite unscaled (exponent.getD 0 - fraction.length) then none
  else return .fraction

/-- The value of a number or a word. -/
def bareValue? (s : List Char) : Option ConfigValue :=
  if s == "null".toList then some .null
  else if s == "true".toList then some (.bool true)
  else if s == "false".toList then some (.bool false)
  else
    match s with
    | '-' :: digits => unsigned? true digits
    | digits => unsigned? false digits

/-- A character of a number or a word. -/
def continuesBare (c : Char) : Bool := c.isAlphanum || c == '+' || c == '-' || c == '.'

/-- A text, a number or a word. -/
def scalar (s : List Char) : Read ConfigValue :=
  match s with
  | '"' :: s => (text s s).map fun (t, rest) => (.text (String.ofList t), rest)
  | s => (bareValue? (s.takeWhile continuesBare)).map fun v => (v, s.dropWhile continuesBare)

/-! ### Lists and objects -/

/-- The items of a list behind its bracket or a comma; at least one has to follow. -/
def items (item : List Char → Read ConfigValue) :
    List Char → List Char → Option (List ConfigValue × List Char)
  | [], _ => none
  | _ :: turns, s => do
    let (v, rest) ← item (dropBlanks s)
    match dropBlanks rest with
    | ',' :: rest =>
      let (vs, rest) ← items item turns rest
      return (v :: vs, rest)
    | ']' :: rest => return ([v], rest)
    | _ => none

/-- The members of an object behind its brace or a comma; at least one has to follow. -/
def members (item : List Char → Read ConfigValue) :
    List Char → List Char → Option (List (String × ConfigValue) × List Char)
  | [], _ => none
  | _ :: turns, s =>
    match dropBlanks s with
    | '"' :: s => do
      let (name, rest) ← text s s
      match dropBlanks rest with
      | ':' :: rest =>
        let (v, rest) ← item (dropBlanks rest)
        match dropBlanks rest with
        | ',' :: rest =>
          let (more, rest) ← members item turns rest
          return ((String.ofList name, v) :: more, rest)
        | '\x7d' :: rest => return ([(String.ofList name, v)], rest)
        | _ => none
      | _ => none
    | _ => none

/-- How deep lists and objects may stand in each other. -/
def maxNesting : Nat := 127

/-- A value, with so many levels of lists and objects inside. -/
def value : Nat → List Char → Read ConfigValue
  | depth + 1, '[' :: s =>
    match dropBlanks s with
    | ']' :: rest => some (.list [], rest)
    | s => (items (value depth) s s).map fun (vs, rest) => (.list vs, rest)
  | depth + 1, '\x7b' :: s =>
    match dropBlanks s with
    | '\x7d' :: rest => some (.table [], rest)
    | s => (members (value depth) s s).map fun (entries, rest) => (.table entries, rest)
  | 0, '[' :: _ => none
  | 0, '\x7b' :: _ => none
  | _, s => scalar s

def parse? (document : String) : Option ConfigValue := do
  let (v, rest) ← value maxNesting (dropBlanks document.toList)
  if dropBlanks rest = [] then return v else none

end TestSelection.Json
