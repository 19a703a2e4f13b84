import TableStore.Number.Integer

/-!
# Reals of 64 bits

- a `Binary64` is the 64 bits of an IEEE-754 double: a sign, an exponent of 11 bits and a fraction of 52;
- without the sign the bits are a number, the `rank`, that grows with the absolute value; the infinity comes after
  every finite rank and the NaNs come after the infinity;
- the absolute value of a finite real is a whole number of units of 2^-1074 (`units`), so reals compare with each
  other and with integers exactly (`compareInt`, `sameValue`);
- `compareTotal` orders all bit patterns, signed zeros and NaNs included.
-/

namespace TableStore

/-- An IEEE-754 double, as its bits. -/
structure Binary64 where
  /-- The sign, the exponent and the fraction, from the highest bit down. -/
  bits : UInt64
  deriving DecidableEq, Repr

namespace Binary64

/-! ## Parts -/

/-- The rank of the infinities: exponent field 2047, fraction 0. -/
def infinityRank : Nat := 0x7FF0000000000000

/-- The sign bit on its own. -/
def signBit : Nat := 0x8000000000000000

/-- How many fractions there are. -/
def fractions : Nat := 0x10000000000000

/-- How many units make 1. -/
def one : Nat := Nat.pow 2 1074

/-- Whether the sign bit is set. -/
def negative (r : Binary64) : Bool := signBit ≤ r.bits.toNat

/-- The bits below the sign. -/
def rank (r : Binary64) : Nat := r.bits.toNat % signBit

/-- The real of a sign and a rank. -/
def ofRank (negative : Bool) (rank : Nat) : Binary64 :=
  ⟨(if negative then signBit + rank else rank).toUInt64⟩

/-- Not a number. -/
def isNaN (r : Binary64) : Bool := infinityRank < r.rank

/-- Neither infinite nor NaN. -/
def isFinite (r : Binary64) : Bool := r.rank < infinityRank

/-- The absolute value in units of 2^-1074; for an infinity, as if the exponent range went on. -/
def units (r : Binary64) : Nat :=
  let exponent := r.rank / fractions
  let fraction := r.rank % fractions
  if exponent = 0 then fraction else (fractions + fraction) * Nat.pow 2 (exponent - 1)

/-- The value in units of 2^-1074. -/
def signedUnits (r : Binary64) : Int := if r.negative then -(r.units : Int) else r.units

/-- The real with the other sign. -/
def neg (r : Binary64) : Binary64 := ofRank (!r.negative) r.rank

/-- The positive zero. -/
def zero : Binary64 := ⟨0⟩

/-! ## Whole numbers -/

/-- The greatest integer that is not above a finite real. -/
def floor (r : Binary64) : Int := r.signedUnits / one

/-- The integer that a real is, if it is one and fits into 64 bits. -/
def toInt64? (r : Binary64) : Option Int64 :=
  if !r.isNaN && r.signedUnits % one == 0 then int64? r.floor else none

/-! ## Comparisons -/

/-- The value of 2^63, the first real above all integers of 64 bits, in units. -/
def limit : Int := 0x8000000000000000 * one

/-- The order of an integer and a real, without rounding the integer; nothing compares with a NaN. Within the range of
integers the floor of the real is compared, and what is left above the floor decides between equals. -/
def compareInt (i : Int64) (r : Binary64) : Option Ordering :=
  if r.isNaN then none
  else if limit ≤ r.signedUnits then some .lt
  else if r.signedUnits < -limit then some .gt
  else some (match compare i.toInt r.floor with
    | .eq => if r.floor * one < r.signedUnits then .lt else .eq
    | order => order)

/-- Whether two reals have the same value; the zeros do, a NaN has none. -/
def sameValue (r s : Binary64) : Bool := !r.isNaN && !s.isNaN && r.signedUnits == s.signedUnits

/-- The place of a real among all bit patterns. -/
def place (r : Binary64) : Int := if r.negative then -(r.rank : Int) - 1 else r.rank

/-- The order of all bit patterns: negative before positive, -0 before 0, NaNs at the two ends. -/
def compareTotal (r s : Binary64) : Ordering := compare r.place s.place

end Binary64

end TableStore
