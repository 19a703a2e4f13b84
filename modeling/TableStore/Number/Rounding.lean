import TableStore.Number.Binary64

/-!
# Rounding to the nearest real

- `ofRatio` gives the real nearest to a ratio of natural numbers; of two that are equally near, the one with the even
  fraction; a ratio that is too large becomes an infinity;
- integers, products and quotients are rounded through it (`ofInt`, `times`, `dividedBy`).
-/

namespace TableStore.Binary64

/-- The quotient of two numbers rounded to the nearest integer, halves to the even one. -/
def divideToEven (num den : Nat) : Nat :=
  let quotient := num / den
  match compare (2 * (num % den)) den with
  | .lt => quotient
  | .gt => quotient + 1
  | .eq => quotient + quotient % 2

/-- The rank of the real nearest to a ratio.

With `shift` binary places dropped the quotient keeps 53; a quotient rounded up to 2^53 has the rank of the next
power of two, since ranks run on from one exponent to the next. -/
def rankOfRatio (num den : Nat) : Nat :=
  let shift := (num * one / den).log2 - 52
  min (shift * fractions + divideToEven (num * one) (den * Nat.pow 2 shift)) infinityRank

/-- The real nearest to a ratio, with a sign. -/
def ofRatio (negative : Bool) (num den : Nat) : Binary64 := ofRank negative (rankOfRatio num den)

/-- The real nearest to a natural number. -/
def ofNat (n : Nat) : Binary64 := ofRatio false n 1

/-- The real nearest to an integer. -/
def ofInt (i : Int) : Binary64 := ofRatio (i < 0) i.natAbs 1

/-- A finite real times a natural number, rounded. -/
def times (r : Binary64) (n : Nat) : Binary64 := ofRatio r.negative (r.units * n) one

/-- A finite real over a natural number, rounded. -/
def dividedBy (r : Binary64) (n : Nat) : Binary64 := ofRatio r.negative r.units (one * n)

example : ofInt 1 = ⟨0x3FF0000000000000⟩ := by decide +kernel
example : ofRatio true 1 10 = ⟨0xBFB999999999999A⟩ := by decide +kernel
example : ofInt 9007199254740993 = ⟨0x4340000000000000⟩ := by decide +kernel

end TableStore.Binary64
