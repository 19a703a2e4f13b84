import TableStore.Number.Rounding
import TableStore.Text.Ranges

/-!
# Decimal numbers

- a `Decimal` is a sign, a coefficient and a power of ten;
- `toBinary64` is the real nearest to it, whatever its size: coefficients and exponents that are out of the range of
  reals are recognized by size, before any power is computed.
-/

namespace TableStore

/-- The number `coefficient * 10 ^ exponent`, with a sign that zero has too. -/
structure Decimal where
  /-- Whether the number is written with a minus sign. -/
  negative : Bool
  /-- The digits as a number. -/
  coefficient : Nat
  /-- The power of ten. -/
  exponent : Int
  deriving DecidableEq, Repr

namespace Decimal

/-- The number that decimal digits denote. -/
def natOfDigits (ds : List Char) : Nat := ds.foldl (fun n c => 10 * n + Text.digitValue c) 0

/-- The rank of the real nearest to a coefficient times a power of ten.

A coefficient of at least 1 times 10^400 is beyond the reals, and one below 2^b times 10^-n is below half the least
real when b + 1075 is at most 3 * n. -/
def rank (coefficient : Nat) : Int → Nat
  | .ofNat n =>
    if coefficient = 0 then 0
    else if 400 ≤ n then Binary64.infinityRank
    else Binary64.rankOfRatio (coefficient * Nat.pow 10 n) 1
  | .negSucc n =>
    if coefficient.log2 + 1 + 1075 ≤ 3 * (n + 1) then 0
    else Binary64.rankOfRatio coefficient (Nat.pow 10 (n + 1))

/-- The nearest real. -/
def toBinary64 (d : Decimal) : Binary64 := .ofRank d.negative (rank d.coefficient d.exponent)

example : toBinary64 ⟨false, 1, -1⟩ = ⟨0x3FB999999999999A⟩ := by decide +kernel
example : toBinary64 ⟨true, 0, 5⟩ = ⟨0x8000000000000000⟩ := by decide +kernel
example : toBinary64 ⟨false, 5, -324⟩ = ⟨1⟩ := by decide +kernel
example : toBinary64 ⟨false, 1, 1000000000⟩ = ⟨0x7FF0000000000000⟩ := by decide +kernel

end Decimal

end TableStore
