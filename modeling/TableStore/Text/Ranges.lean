/-!
# Sets of characters given by ranges

- a set of characters is a list of ranges of code points, ends included (`inRanges`);
- ASCII digits are the only digits of numbers (`isDigit`).
-/

namespace TableStore.Text

/-- Whether a code point lies in one of the ranges. -/
def inRanges (ranges : List (Nat × Nat)) (n : Nat) : Bool := ranges.any fun r => r.1 ≤ n && n ≤ r.2

/-- The digits that numbers are written with: `0` to `9`. -/
def isDigit (c : Char) : Bool := '0' ≤ c && c ≤ '9'

/-- The value of a digit. -/
def digitValue (c : Char) : Nat := c.toNat - '0'.toNat

end TableStore.Text
