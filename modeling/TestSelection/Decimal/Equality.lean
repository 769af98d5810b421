import TestSelection.Decimal.Basic

/-!
How two numbers are found equal. At one scale their unscaled numbers are compared. At scales fewer
than twenty digits apart the shorter number is multiplied by a power of ten word by word, and each
word is compared as it comes. The carry has a fixed width; where it overflows, a number may differ
from the same value at another scale. Further apart the values themselves are compared.
-/

namespace TestSelection.Decimal

/-- One more than the largest word. -/
def wordSize : Nat := 4294967296

/-- One more than the largest product of words, its carry added. -/
def productSize : Nat := 18446744073709551616

/-- The words of a number, the lowest one first; zero has none. -/
def words (n : Nat) : List Nat :=
  if n = 0 then [] else n % wordSize :: words (n / wordSize)
termination_by n
decreasing_by exact Nat.div_lt_self (by omega) (by decide)

/-- Whether the words of one number are those of another one times a factor, from the lowest word
upwards. There is no answer if the product of a word does not fit; a carry that does not fit is
cut. -/
def isProduct? (factor : Nat) : Nat → List Nat → List Nat → Option Bool
  | carry, w :: whole, p :: part =>
    if productSize ≤ p * factor then none
    else
      let sum := (p * factor + carry) % productSize
      if w = sum % wordSize then isProduct? factor (sum / wordSize) whole part else some false
  | _, [], _ :: _ => some false
  | carry, w :: whole, [] => if w = carry then isProduct? factor 0 whole [] else some false
  | carry, [], [] => some (carry == 0)

/-- The number of binary digits; zero has none. -/
def bitCount (n : Nat) : Nat := if n = 0 then 0 else n.log2 + 1

/-- From so many zeros on, words are not used. -/
def wordwiseLimit : Nat := 20

/-- Whether a positive number is another one with zeros appended. -/
def isExtension (n m zeros : Nat) : Bool :=
  let factor := tenPower zeros
  if bitCount n < bitCount m + factor.log2 then false
  else if zeros < wordwiseLimit then
    (isProduct? factor 0 (words n) (words m)).getD (n == m * factor)
  else n == m * factor

/-- Whether two numbers are found equal. -/
def equals (a b : Decimal) : Bool :=
  if a.unscaled.sign ≠ b.unscaled.sign then false
  else if a.isZero then true
  else if a.scale = b.scale then a.unscaled == b.unscaled
  else if b.scale < a.scale then
    isExtension a.unscaled.natAbs b.unscaled.natAbs (a.scale - b.scale).toNat
  else isExtension b.unscaled.natAbs a.unscaled.natAbs (b.scale - a.scale).toNat

end TestSelection.Decimal
