import TestSelection.Decimal.Basic
import TestSelection.Text

/-!
How decimal numbers are read and written. A number is read as digits with an optional fraction, sign
and size letter. It is written in two forms: with all the digits of its scale, where very small
numbers get an exponent, and plainly, without needless zeros and without an exponent.
-/

namespace TestSelection.Decimal

/-- The factor of a size letter: a power of 1024. -/
def sizeFactor? : Char → Option Nat
  | 'k' | 'K' => some 1024
  | 'm' | 'M' => some (1024 * 1024)
  | 'g' | 'G' => some (1024 * 1024 * 1024)
  | 't' | 'T' => some (1024 * 1024 * 1024 * 1024)
  | _ => none

/-- One or more decimal digits. -/
def isDigits (s : List Char) : Bool := !s.isEmpty && s.all Char.isDigit

/-- Digits, with or without a point and further digits. -/
def readUnsigned? (s : List Char) : Option Decimal :=
  match Chars.cut '.' s with
  | none => if isDigits s then some (ofInt (Chars.natOfDigits s)) else none
  | some (whole, fraction) =>
    if isDigits whole && isDigits fraction then
      some ⟨Chars.natOfDigits (whole ++ fraction), fraction.length⟩
    else none

/-- An unsigned number, with or without a minus sign. -/
def readSigned? : List Char → Option Decimal
  | '-' :: s => (readUnsigned? s).map (- ·)
  | s => readUnsigned? s

/-- A number times the factor of its size letter; the value one becomes the factor itself, without
digits after the point. -/
def times (d : Decimal) (factor : Nat) : Decimal :=
  if d.isOne then ofInt factor else ⟨d.unscaled * factor, d.scale⟩

/-- Reads `-digits.digits` with a size letter; sign, fraction and letter may be absent, and blanks
may stand around. -/
def readChars? (s : List Char) : Option Decimal :=
  let s := Chars.trim s
  match s.reverse with
  | [] => none
  | last :: front =>
    match sizeFactor? last with
    | some factor => (readSigned? front.reverse).map (·.times factor)
    | none => (readSigned? s).map (·.times 1)

/-- The number that a text stands for, if it is one. -/
def ofText? (s : String) : Option Decimal := readChars? s.toList

/-- Digits with a point before the last `scale` of them. -/
def placePoint (digits : List Char) (scale : Nat) : List Char :=
  if scale = 0 then digits
  else
    let padded := List.replicate (scale + 1 - digits.length) '0' ++ digits
    let whole := padded.length - scale
    padded.take whole ++ '.' :: padded.drop whole

/-- More zeros than this after the point of a small number are written as an exponent. -/
def leadingZeroLimit : Int := 5

/-- More zeros than this before the point are written as an exponent. -/
def trailingZeroLimit : Int := 15

/-- An absolute value with all the digits of its scale. -/
def magnitudeText (digits : List Char) (scale : Int) : List Char :=
  let length : Int := digits.length
  if leadingZeroLimit < scale - length then
    let fraction := digits.drop 1
    digits.take 1 ++ (if fraction.isEmpty then [] else '.' :: fraction)
      ++ "E-".toList ++ (toString (scale - length + 1)).toList
  else if trailingZeroLimit < -scale then
    digits ++ "e+".toList ++ (toString (-scale)).toList
  else if scale ≤ 0 then digits ++ List.replicate (-scale).toNat '0'
  else placePoint digits scale.toNat

/-- Sign and absolute value; zero has neither sign nor fraction. -/
def text (d : Decimal) : String :=
  if d.isZero then "0"
  else
    let digits := (Nat.repr d.unscaled.natAbs).toList
    let sign := if d.unscaled < 0 then ['-'] else []
    String.ofList (sign ++ magnitudeText digits d.scale)

/-- The value without an exponent and without zeros at the end of its fraction. -/
def plain (d : Decimal) : String :=
  let d := d.strip
  let digits := (Nat.repr d.unscaled.natAbs).toList
  let sign := if d.unscaled < 0 then ['-'] else []
  String.ofList (sign ++
    (if d.scale ≤ 0 then digits ++ List.replicate (-d.scale).toNat '0'
     else placePoint digits d.scale.toNat))

end TestSelection.Decimal
