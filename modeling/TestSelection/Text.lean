/-!
Text as lists of characters: blanks, trimming, words, lines and cuts at a separator. A character is
a blank when it has the Unicode property `White_Space`. Every cut keeps the order of what it cuts,
and a text is rebuilt from its parts by the separators between them.
-/

namespace TestSelection

namespace Chars

/-- The twenty-five characters with the property `White_Space`. -/
def isBlank (c : Char) : Bool :=
  let n := c.toNat
  (9 ≤ n && n ≤ 13) || n = 32 || n = 0x85 || n = 0xA0 || n = 0x1680
    || (0x2000 ≤ n && n ≤ 0x200A) || n = 0x2028 || n = 0x2029 || n = 0x202F || n = 0x205F
    || n = 0x3000

def trimStart (s : List Char) : List Char := s.dropWhile isBlank

def trimEnd (s : List Char) : List Char := (s.reverse.dropWhile isBlank).reverse

def trim (s : List Char) : List Char := trimEnd (trimStart s)

/-- Cuts before and after every character with the property; there is always at least one part. -/
def splitBy (p : Char → Bool) : List Char → List (List Char)
  | [] => [[]]
  | c :: s =>
    if p c then [] :: splitBy p s
    else
      match splitBy p s with
      | [] => [[c]]
      | part :: parts => (c :: part) :: parts

def splitAt (separator : Char) (s : List Char) : List (List Char) := splitBy (· == separator) s

/-- The maximal runs of characters that are not blank. -/
def words (s : List Char) : List (List Char) := (splitBy isBlank s).filter (!·.isEmpty)

/-- The text before and after the first character with the property. -/
def cutBy (p : Char → Bool) (s : List Char) : Option (List Char × List Char) :=
  match s.dropWhile (!p ·) with
  | [] => none
  | _ :: rest => some (s.takeWhile (!p ·), rest)

def cut (separator : Char) (s : List Char) : Option (List Char × List Char) :=
  cutBy (· == separator) s

def cutLast (separator : Char) (s : List Char) : Option (List Char × List Char) :=
  (cut separator s.reverse).map fun (after, before) => (before.reverse, after.reverse)

/-- What follows a given beginning. -/
def after? : List Char → List Char → Option (List Char)
  | [], s => some s
  | _ :: _, [] => none
  | p :: ps, c :: s => if p = c then after? ps s else none

/-- What stands before a given end. -/
def before? (ending s : List Char) : Option (List Char) :=
  (after? ending.reverse s.reverse).map List.reverse

/-- A carriage return at the end of a line belongs to the line break. -/
def dropReturn (line : List Char) : List Char :=
  match line.reverse with
  | '\r' :: rest => rest.reverse
  | _ => line

/-- The lines of a text: each ends with a line feed, of which a carriage return just before it is a
part; a last line without a line feed keeps its carriage return, and an empty one is no line. -/
def lines (s : List Char) : List (List Char) :=
  match (splitAt '\n' s).reverse with
  | [] => []
  | last :: ended =>
    let complete := ended.reverse.map dropReturn
    if last.isEmpty then complete else complete ++ [last]

def isLetter (c : Char) : Bool := c.isAlpha

def isWordChar (c : Char) : Bool := c.isAlphanum || c == '_'

/-- Upper-case ASCII letters are written small; all other characters stay. -/
def lower (s : List Char) : List Char := s.map Char.toLower

def byteSize (s : List Char) : Nat := s.foldl (fun n c => n + c.utf8Size) 0

def digitValue (c : Char) : Nat := c.toNat - '0'.toNat

def natOfDigits (s : List Char) : Nat := s.foldl (fun n c => 10 * n + digitValue c) 0

/-- The largest count: a number of sixty-four bits. -/
def maxCount : Nat := 18446744073709551615

/-- A count: decimal digits, with or without a plus sign, that stand for at most `maxCount`. -/
def count? (s : List Char) : Option Nat :=
  let digits := match s with
    | '+' :: rest => rest
    | s => s
  let n := natOfDigits digits
  if !digits.isEmpty && digits.all Char.isDigit && n ≤ maxCount then some n else none

def dropFront (c : Char) (s : List Char) : List Char := s.dropWhile (· == c)

def dropBack (c : Char) (s : List Char) : List Char := (s.reverse.dropWhile (· == c)).reverse

end Chars

namespace Text

def trim (s : String) : String := String.ofList (Chars.trim s.toList)

def words (s : String) : List String := (Chars.words s.toList).map String.ofList

def lines (s : String) : List String := (Chars.lines s.toList).map String.ofList

def splitAt (separator : Char) (s : String) : List String :=
  (Chars.splitAt separator s.toList).map String.ofList

def cut (separator : Char) (s : String) : Option (String × String) :=
  (Chars.cut separator s.toList).map fun (a, b) => (String.ofList a, String.ofList b)

def cutLast (separator : Char) (s : String) : Option (String × String) :=
  (Chars.cutLast separator s.toList).map fun (a, b) => (String.ofList a, String.ofList b)

def after? (beginning s : String) : Option String :=
  (Chars.after? beginning.toList s.toList).map String.ofList

def before? (ending s : String) : Option String :=
  (Chars.before? ending.toList s.toList).map String.ofList

def startsWith (beginning s : String) : Bool := (after? beginning s).isSome

def has (c : Char) (s : String) : Bool := s.toList.contains c

def lower (s : String) : String := String.ofList (Chars.lower s.toList)

/-- One blank between the words, and none elsewhere. -/
def fold (s : String) : String := " ".intercalate (words s)

def dropFront (c : Char) (s : String) : String := String.ofList (Chars.dropFront c s.toList)

def count? (s : String) : Option Nat := Chars.count? s.toList

def swap (old new : Char) (s : String) : String :=
  String.ofList (s.toList.map fun c => if c == old then new else c)

/-- Parts written with a line feed between them. -/
def unlines (parts : List String) : String := "\n".intercalate parts

end Text

end TestSelection
