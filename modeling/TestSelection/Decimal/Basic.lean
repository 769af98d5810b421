/-!
Decimal numbers with a scale, that is the number of digits after the point. Sums, differences,
products and remainders are exact; a quotient is rounded to a hundred digits and then cut to a whole
number. The order of numbers is that of their values: `1.5` and `1.50` differ as texts only.
-/

namespace TestSelection

/-- The number `unscaled / 10 ^ scale`; a negative scale stands for zeros before the point. -/
structure Decimal where
  unscaled : Int
  scale : Int
deriving DecidableEq, Inhabited

namespace Decimal

def ofInt (n : Int) : Decimal := ⟨n, 0⟩

def tenPower (n : Nat) : Nat := Nat.pow 10 n

/-- The unscaled number at a scale not below the number's own. -/
def raise (d : Decimal) (scale : Int) : Int := d.unscaled * tenPower (scale - d.scale).toNat

def commonScale (a b : Decimal) : Int := max a.scale b.scale

/-- Combines the unscaled numbers at the larger of the two scales. -/
def combine (f : Int → Int → Int) (a b : Decimal) : Decimal :=
  let s := commonScale a b
  ⟨f (a.raise s) (b.raise s), s⟩

def sameValue (a b : Decimal) : Bool :=
  let s := commonScale a b
  a.raise s == b.raise s

def less (a b : Decimal) : Bool :=
  let s := commonScale a b
  a.raise s < b.raise s

def isZero (a : Decimal) : Bool := a.unscaled == 0

/-- The largest scale at which the value one is told from other values. -/
def oneScaleLimit : Int := 38

/-- The value one, at a scale up to `oneScaleLimit`. -/
def isOne (a : Decimal) : Bool :=
  0 ≤ a.scale && a.scale ≤ oneScaleLimit && a.unscaled == tenPower a.scale.toNat

instance : Neg Decimal := ⟨fun a => ⟨-a.unscaled, a.scale⟩⟩

/-- The most digits by which a number gets longer when a zero is added to it. -/
def zeroExtension : Int := 15

/-- The sum with a zero of the given scale. It has the zero's scale if that is the larger one, but
is no more than `zeroExtension` digits longer. -/
def addZero (a : Decimal) (scale : Int) : Decimal :=
  let s := max a.scale (min scale (a.scale + zeroExtension))
  ⟨a.raise s, s⟩

/-- A sum has the larger of the two scales, unless one of the two is zero. -/
instance : Add Decimal := ⟨fun a b =>
  if b.isZero then a.addZero b.scale
  else if a.isZero then b.addZero a.scale
  else combine (· + ·) a b⟩

instance : Sub Decimal := ⟨combine (· - ·)⟩

/-- The remainder of the quotient cut to a whole number; it has the sign of the left side. -/
instance : Mod Decimal := ⟨combine Int.tmod⟩

/-- The number of decimal digits; zero has one. -/
def digitCount (n : Nat) : Nat := (Nat.repr n).length

def trailingZeros (n : Nat) : Nat := ((Nat.repr n).toList.reverse.takeWhile (· == '0')).length

/-- The same value with no zero at the end of the unscaled number. -/
def strip (a : Decimal) : Decimal :=
  if a.isZero then ofInt 0
  else
    let zeros := trailingZeros a.unscaled.natAbs
    ⟨a.unscaled.tdiv (tenPower zeros), a.scale - zeros⟩

/-- The scales are added, but a factor with the value one leaves the other factor, stripped. -/
instance : Mul Decimal := ⟨fun a b =>
  if a.isOne then b.strip
  else if b.isOne then a.strip
  else ⟨a.unscaled * b.unscaled, a.scale + b.scale⟩⟩

/-- Cuts all digits after the point. -/
def cutToWhole (a : Decimal) : Decimal :=
  if a.scale ≤ 0 then ofInt (a.raise 0) else ofInt (a.unscaled.tdiv (tenPower a.scale.toNat))

/-- The digits that a quotient keeps. -/
def quotientDigits : Nat := 100

/-- The least number of zeros which, appended to `n`, makes it at least `d`. -/
def zerosToReach (n d : Nat) : Nat :=
  let k := digitCount d - digitCount n
  if d ≤ n * tenPower k then k else k + 1

/-- The quotient of two positive numbers to `quotientDigits` digits, and how many of them were
appended. A further digit of five or more rounds up; a whole part that is longer keeps all its
digits and is rounded likewise. -/
def roundedQuotient (n d : Nat) : Nat × Nat :=
  let zeros := zerosToReach n d
  let whole := n * tenPower zeros / d
  let more := quotientDigits - digitCount whole
  let scaled := n * tenPower (zeros + more)
  let q := scaled / d
  (if 5 ≤ scaled % d * 10 / d then q + 1 else q, zeros + more)

/-- The quotient by a number that is not zero, to `quotientDigits` digits. -/
def quotient (a b : Decimal) : Decimal :=
  let s := a.scale - b.scale
  if a.isZero || b.isOne then a
  else if a.unscaled = b.unscaled then ⟨1, s⟩
  else
    let (q, appended) := roundedQuotient a.unscaled.natAbs b.unscaled.natAbs
    ⟨a.unscaled.sign * b.unscaled.sign * q, s + appended⟩

/-- Division cut to a whole number, toward zero. -/
instance : Div Decimal := ⟨fun a b => (quotient a b).cutToWhole⟩

end Decimal

end TestSelection
