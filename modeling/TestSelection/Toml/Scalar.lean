import TestSelection.Decimal.Basic
import TestSelection.Text
import TestSelection.Toml.Value

/-!
The scalars of TOML: quoted texts of four kinds, whole numbers in four bases, numbers with a
fraction, dates and times, and the truth values. Each reader takes the text behind the opening mark
and leaves the rest; `none` says that the document is wrong.
-/

namespace TestSelection.Toml

/-- What a reader makes of the front of a text, and the rest. -/
abbrev Read (α : Type) := Option (α × List Char)

def isGap (c : Char) : Bool := c == ' ' || c == '\t'

/-- A character that may stand in comments and in texts on one line. -/
def isPlain (c : Char) : Bool := c == '\t' || (32 ≤ c.toNat && c.toNat != 127)

/-- What follows a line break, if there is one. -/
def lineBreak? : List Char → Option (List Char)
  | '\n' :: s => some s
  | '\r' :: '\n' :: s => some s
  | _ => none

def hexValue? (c : Char) : Option Nat :=
  if c.isDigit then some (c.toNat - 48)
  else if 'a' ≤ c ∧ c ≤ 'f' then some (c.toNat - 87)
  else if 'A' ≤ c ∧ c ≤ 'F' then some (c.toNat - 55)
  else none

/-- The character whose number is written in hexadecimal digits. -/
def charOfHex? (digits : List Char) : Option Char := do
  let n ← digits.foldlM (fun n c => (hexValue? c).map (16 * n + ·)) 0
  if n < 0xD800 ∨ (0xDFFF < n ∧ n < 0x110000) then some (Char.ofNat n) else none

/-- The character for a number written in the next `count` digits. -/
def numberedChar (count : Nat) (s : List Char) : Read Char :=
  if (s.take count).length = count then
    (charOfHex? (s.take count)).map fun c => (c, s.drop count)
  else none

/-- What a backslash and the text behind it stand for. -/
def escape : List Char → Read Char
  | 'b' :: s => some ('\x08', s)
  | 't' :: s => some ('\t', s)
  | 'n' :: s => some ('\n', s)
  | 'f' :: s => some ('\x0c', s)
  | 'r' :: s => some ('\r', s)
  | 'e' :: s => some ('\x1b', s)
  | '"' :: s => some ('"', s)
  | '\\' :: s => some ('\\', s)
  | 'x' :: s => numberedChar 2 s
  | 'u' :: s => numberedChar 4 s
  | 'U' :: s => numberedChar 8 s
  | _ => none

def withChar (c : Char) : Read (List Char) → Read (List Char) :=
  Option.map fun (t, rest) => (c :: t, rest)

/-- A text on one line with escapes, up to the closing quote. Each turn uses up a character of
`turns` and one or more of the text. -/
def basicText : List Char → List Char → Read (List Char)
  | [], _ => none
  | _ :: turns, s =>
    match s with
    | [] => none
    | '"' :: rest => some ([], rest)
    | '\\' :: rest =>
      match escape rest with
      | some (c, rest) => withChar c (basicText turns rest)
      | none => none
    | c :: rest => if isPlain c then withChar c (basicText turns rest) else none

/-- A text on one line without escapes, up to the closing quote. -/
def literalText : List Char → Read (List Char)
  | [] => none
  | '\'' :: rest => some ([], rest)
  | c :: rest => if isPlain c then withChar c (literalText rest) else none

/-- Blanks and line breaks are dropped at the front. -/
def dropBlankLines : List Char → List Char
  | ' ' :: s | '\t' :: s | '\n' :: s | '\r' :: '\n' :: s => dropBlankLines s
  | s => s

/-- A character that may stand in texts on several lines. -/
def isPlainOrBreak (c : Char) : Bool := isPlain c || c == '\n'

/-- A text on several lines with escapes, up to the three closing quotes; one or two more quotes
before these belong to the text. A backslash at the end of a line drops the blanks and line breaks
behind it; all other line breaks are kept as they are. -/
def basicLines : List Char → List Char → Read (List Char)
  | [], _ => none
  | _ :: turns, s =>
    match s with
    | [] => none
    | '"' :: '"' :: '"' :: '"' :: '"' :: rest => some (['"', '"'], rest)
    | '"' :: '"' :: '"' :: '"' :: rest => some (['"'], rest)
    | '"' :: '"' :: '"' :: rest => some ([], rest)
    | '\\' :: rest =>
      match lineBreak? (rest.dropWhile isGap) with
      | some rest => basicLines turns (dropBlankLines rest)
      | none =>
        match escape rest with
        | some (c, rest) => withChar c (basicLines turns rest)
        | none => none
    | '\r' :: '\n' :: rest => withChar '\r' (withChar '\n' (basicLines turns rest))
    | c :: rest => if isPlainOrBreak c then withChar c (basicLines turns rest) else none

/-- A text on several lines without escapes, up to the three closing quotes; one or two more quotes
before these belong to the text. -/
def literalLines : List Char → List Char → Read (List Char)
  | [], _ => none
  | _ :: turns, s =>
    match s with
    | [] => none
    | '\'' :: '\'' :: '\'' :: '\'' :: '\'' :: rest => some (['\'', '\''], rest)
    | '\'' :: '\'' :: '\'' :: '\'' :: rest => some (['\''], rest)
    | '\'' :: '\'' :: '\'' :: rest => some ([], rest)
    | '\r' :: '\n' :: rest => withChar '\r' (withChar '\n' (literalLines turns rest))
    | c :: rest => if isPlainOrBreak c then withChar c (literalLines turns rest) else none

/-- A line break right behind the opening quotes does not count. -/
def afterOpening (s : List Char) : List Char := (lineBreak? s).getD s

/-- A quoted text of any kind. -/
def quotedText : List Char → Read (List Char)
  | '"' :: '"' :: '"' :: s => basicLines s (afterOpening s)
  | '"' :: s => basicText s s
  | '\'' :: '\'' :: '\'' :: s => literalLines s (afterOpening s)
  | '\'' :: s => literalText s
  | _ => none

def digits? (isDigit : Char → Bool) (s : List Char) : Option (List Char) :=
  let groups := Chars.splitAt '_' s
  if groups.all fun g => !g.isEmpty && g.all isDigit then some groups.flatten else none

/-- A sign in front of a number, and the rest. -/
def splitSign : List Char → Bool × List Char
  | '+' :: s => (false, s)
  | '-' :: s => (true, s)
  | s => (false, s)

/-- Decimal digits without a needless zero in front. -/
def decimalDigits? (s : List Char) : Option (List Char) :=
  match digits? Char.isDigit s with
  | some ('0' :: _ :: _) => none
  | other => other

/-- The number that digits of a base stand for. -/
def natOfBase (base : Nat) (digits : List Char) : Nat :=
  digits.foldl (fun n c => base * n + (hexValue? c).getD 0) 0

/-- The first number that is too large for a hundred and twenty-eight bits. -/
def intLimit : Nat := 340282366920938463463374607431768211456

/-- A whole number, if it fits into a hundred and twenty-eight bits, with or without a sign. -/
def intValue (n : Int) : ConfigValue :=
  if -(intLimit / 2 : Int) ≤ n ∧ n < intLimit then .int n else .outOfRange

/-- A whole number of a base, whose digits are its characters below the base. -/
def natInBase? (base : Nat) (s : List Char) : Option Nat :=
  (digits? (fun c => ((hexValue? c).filter (· < base)).isSome) s).map (natOfBase base)

def int? (s : List Char) : Option Int :=
  match s with
  | '0' :: 'x' :: s => (natInBase? 16 s).map Int.ofNat
  | '0' :: 'o' :: s => (natInBase? 8 s).map Int.ofNat
  | '0' :: 'b' :: s => (natInBase? 2 s).map Int.ofNat
  | s =>
    let (negative, s) := splitSign s
    (decimalDigits? s).map fun d =>
      let n : Int := natOfBase 10 d
      if negative then -n else n

/-- The digits of a whole number and of a fraction, without a needless zero in front. -/
def mantissa? (s : List Char) : Option (List Char × List Char) :=
  match Chars.cut '.' s with
  | some (whole, fraction) => do return (← decimalDigits? whole, ← digits? Char.isDigit fraction)
  | none => (decimalDigits? s).map fun whole => (whole, [])

/-- An exponent with or without a sign; zeros may stand in front. -/
def exponent? (s : List Char) : Option Int :=
  let (negative, s) := splitSign s
  (digits? Char.isDigit s).map fun d =>
    let n : Int := Chars.natOfDigits d
    if negative then -n else n

/-- An unscaled number and its exponent of ten, for a number with a fraction, an exponent or both;
the sign is left out. -/
def float? (s : List Char) : Option (Nat × Int) := do
  let (_, s) := splitSign s
  let (m, exponent) ← match Chars.cutBy (fun c => c == 'e' || c == 'E') s with
    | some (m, e) => (exponent? e).map fun n => (m, n)
    | none => if s.contains '.' then some (s, 0) else none
  let (whole, fraction) ← mantissa? m
  return (Chars.natOfDigits (whole ++ fraction), exponent - fraction.length)

/-- The words for what is no finite number, with or without a sign. -/
def isFloatWord (s : List Char) : Bool :=
  let (_, s) := splitSign s
  s == "inf".toList || s == "nan".toList

/-- Half a step above the largest finite number of fifty-three binary digits and an exponent: from
here on a number is rounded to infinity. -/
def floatLimit : Nat := Nat.pow 2 1024 - Nat.pow 2 970

def floatPlaces : Int := 309

/-- Whether `unscaled` times a power of ten is rounded to infinity. -/
def isInfinite (unscaled : Nat) (exponent : Int) : Bool :=
  let places : Int := Decimal.digitCount unscaled + exponent
  if unscaled = 0 ∨ places < floatPlaces then false
  else if floatPlaces < places then true
  else floatLimit * Decimal.tenPower (-exponent).toNat
    ≤ unscaled * Decimal.tenPower exponent.toNat

/-- A number of exactly so many digits. -/
def fixedNumber? (count : Nat) (s : List Char) : Option Nat :=
  if s.length = count ∧ s.all Char.isDigit then some (Chars.natOfDigits s) else none

/-- The days of a month. -/
def daysOf (year month : Nat) : Nat :=
  if month = 2 then
    if (year % 4 = 0 ∧ year % 100 ≠ 0) ∨ year % 400 = 0 then 29 else 28
  else if [4, 6, 9, 11].contains month then 30
  else 31

def isDate (s : List Char) : Bool :=
  match (Chars.splitAt '-' s) with
  | [y, m, d] =>
    match fixedNumber? 4 y, fixedNumber? 2 m, fixedNumber? 2 d with
    | some y, some m, some d => 1 ≤ m && m ≤ 12 && 1 ≤ d && d ≤ daysOf y m
    | _, _, _ => false
  | _ => false

/-- Whether a text is a number of exactly two digits below a bound. -/
def isBelow (bound : Nat) (s : List Char) : Bool :=
  match fixedNumber? 2 s with
  | some n => n < bound
  | none => false

/-- Whether a text is a time of the day; its seconds may be left out or have a fraction. -/
def isTime (s : List Char) : Bool :=
  match (Chars.splitAt ':' s) with
  | [h, m] => isBelow 24 h && isBelow 60 m
  | [h, m, seconds] =>
    let secondsOk := match Chars.cut '.' seconds with
      | some (whole, fraction) => isBelow 61 whole && !fraction.isEmpty && fraction.all Char.isDigit
      | none => isBelow 61 seconds
    isBelow 24 h && isBelow 60 m && secondsOk
  | _ => false

/-- Whether a text is a time of the day with or without a distance from the zero meridian. -/
def isZonedTime (s : List Char) : Bool :=
  match s.getLast? with
  | some 'Z' | some 'z' => isTime s.dropLast
  | _ =>
    match Chars.cutBy (fun c => c == '+' || c == '-') s with
    | some (time, zone) =>
      isTime time && (match Chars.splitAt ':' zone with
        | [h, m] => isBelow 24 h && isBelow 60 m
        | _ => false)
    | none => isTime s

/-- Whether a text is a date, a time or both. -/
def isDateTime (s : List Char) : Bool :=
  isDate s || isTime s ||
    (isDate (s.take 10) && (match s.drop 10 with
      | c :: time => (c == 'T' || c == 't' || c == ' ') && isZonedTime time
      | [] => false))

/-- A character of a value that is not quoted. -/
def continuesBare (c : Char) : Bool :=
  c.isAlphanum || c == '+' || c == '-' || c == '_' || c == '.' || c == ':'

/-- The value that is not quoted at the front of a text; a date may be followed by one blank and a
time. -/
def bareText (s : List Char) : List Char × List Char :=
  let token := s.takeWhile continuesBare
  let rest := s.dropWhile continuesBare
  match rest with
  | ' ' :: c :: more =>
    if isDate token && c.isDigit then
      let time := (c :: more).takeWhile continuesBare
      (token ++ ' ' :: time, (c :: more).dropWhile continuesBare)
    else (token, rest)
  | _ => (token, rest)

/-- The value that a text without quotes stands for. -/
def bareValue? (s : List Char) : Option ConfigValue :=
  if s == "true".toList then some (.bool true)
  else if s == "false".toList then some (.bool false)
  else
    match int? s, float? s with
    | some n, _ => some (intValue n)
    | none, some (unscaled, exponent) =>
      some (if isInfinite unscaled exponent then .outOfRange else .fraction)
    | none, none =>
      if isFloatWord s then some .fraction
      else if isDateTime s then some (.moment (String.ofList s))
      else none

def scalar (s : List Char) : Read ConfigValue :=
  match s with
  | '"' :: _ | '\'' :: _ => (quotedText s).map fun (t, rest) => (.text (String.ofList t), rest)
  | s =>
    let (token, rest) := bareText s
    (bareValue? token).map fun v => (v, rest)

end TestSelection.Toml
