import TableStore.Number.Layout
import TableStore.Value

/-!
# JSON numbers

- `writeReal` writes a finite real with its shortest digits, of two equally near decimals the even one, and `null`
  for the others;
- `readNumber?` takes the digits that fit into 64 bits as the significand and scales it by a power of ten with one
  rounding per step, so a number with an exponent need not become the nearest real; integers of 64 bits are kept as
  integers, larger ones become reals, and so does `-0`;
- a number beyond the reals is refused.
-/

namespace TableStore.Json

/-! ## Writing -/

/-- A real as a JSON number, or `null`. -/
def writeReal (r : Binary64) : List Char :=
  if r.isFinite then (Decimal.shortest .even r).withPoint else ['n', 'u', 'l', 'l']

/-! ## Scaling -/

/-- The real nearest to a power of ten, as the whole number that it is. -/
def powerOfTen (n : Nat) : Nat := (Decimal.toBinary64 ⟨false, 1, n⟩).units / Binary64.one

/-- A real times a power of ten: one product or quotient by the power, after quotients by 10^308 while the exponent
is below -308; three of these leave nothing of a significand of 64 bits. -/
def scale? : Nat → Binary64 → Int → Option Binary64
  | _, f, .ofNat n =>
    if n ≤ 308 then
      let product := f.times (powerOfTen n)
      if product.isFinite then some product else none
    else if f.rank = 0 then some f else none
  | fuel, f, .negSucc n =>
    if n + 1 ≤ 308 then some (f.dividedBy (powerOfTen (n + 1)))
    else if f.rank = 0 then some f
    else match fuel with
      | 0 => some .zero
      | fuel + 1 => scale? fuel (f.dividedBy (powerOfTen 308)) (.negSucc (n - 308))

/-- The real of a sign, a significand and a power of ten. -/
def realOfParts? (negative : Bool) (significand : Nat) (exponent : Int) : Option Binary64 :=
  (scale? 3 (.ofNat significand) exponent).map fun f => if negative then f.neg else f

/-! ## Reading -/

/-- The significand with more digits, as long as it stays below 2^64, and how many digits it took. -/
def absorb (significand : Nat) : List Char → Nat × Nat
  | [] => (significand, 0)
  | d :: ds =>
    let next := 10 * significand + Text.digitValue d
    if next < UInt64.size then
      let (s, n) := absorb next ds
      (s, n + 1)
    else (significand, 0)

/-- An integer: of 64 bits, or a real. -/
def ofInteger (negative : Bool) (n : Nat) : Value :=
  let r := Binary64.ofNat n
  if negative then
    if n = 0 then .real r.neg
    else match int64? (-(n : Int)) with
      | some i => .integer i
      | none => .real r.neg
  else match int64? n with
    | some i => .integer i
    | none => .real r

/-- The digits at the front and the rest. -/
def spanDigits (cs : List Char) : List Char × List Char := (cs.takeWhile Text.isDigit, cs.dropWhile Text.isDigit)

/-- The exponent of a number, and the rest: none if there is none, and no reading if no digit follows its mark. -/
def readExponent? : List Char → Option (Option (Bool × List Char) × List Char)
  | c :: cs =>
    if c = 'e' ∨ c = 'E' then
      let (negative, cs) := match cs with
        | '-' :: cs => (true, cs)
        | '+' :: cs => (false, cs)
        | cs => (false, cs)
      let (ds, rest) := spanDigits cs
      if ds.isEmpty then none else some (some (negative, ds), rest)
    else some (none, c :: cs)
  | [] => some (none, [])

/-- The digits after the point, and the rest: none if there is no point, and no reading if no digit follows it. -/
def readFraction? : List Char → Option (Option (List Char) × List Char)
  | '.' :: cs =>
    let (ds, rest) := spanDigits cs
    if ds.isEmpty then none else some (some ds, rest)
  | cs => some (none, cs)

/-- The digits before the point, and the rest; a zero stands alone. -/
def readWhole? (cs : List Char) : Option (List Char × List Char) :=
  let (ds, rest) := spanDigits cs
  match ds with
  | [] => none
  | '0' :: _ :: _ => none
  | ds => some (ds, rest)

/-- The value of the parts of a number. An exponent beyond 32 bits is refused, or leaves nothing when it is negative
or the significand is zero. -/
def ofParts? (negative : Bool) (whole : List Char) (fraction : Option (List Char))
    (exponent : Option (Bool × List Char)) : Option Value :=
  let (s, taken) := absorb 0 whole
  let left : Int := (whole.length : Int) - taken
  let (s, left) := match fraction with
    | none => (s, left)
    | some ds =>
      let (s, taken) := absorb s ds
      (s, left - taken)
  match exponent with
  | none =>
    if fraction.isNone && left == 0 then some (ofInteger negative s)
    else (realOfParts? negative s left).map .real
  | some (down, ds) =>
    let e := Decimal.natOfDigits ds
    if 0x80000000 ≤ e then
      if s ≠ 0 && !down then none else some (.real (if negative then Binary64.zero.neg else .zero))
    else (realOfParts? negative s (if down then left - e else left + e)).map .real

/-- A number after its sign, and the rest. -/
def readUnsigned? (negative : Bool) (cs : List Char) : Option (Value × List Char) := do
  let (whole, cs) ← readWhole? cs
  let (fraction, cs) ← readFraction? cs
  let (exponent, cs) ← readExponent? cs
  let v ← ofParts? negative whole fraction exponent
  return (v, cs)

/-- A number and the rest. -/
def readNumber? : List Char → Option (Value × List Char)
  | '-' :: cs => readUnsigned? true cs
  | cs => readUnsigned? false cs

/-- The rest after a number whose size does not matter. -/
def skipNumber? (cs : List Char) : Option (List Char) := do
  let (_, cs) ← readWhole? (match cs with
    | '-' :: cs => cs
    | cs => cs)
  let (_, cs) ← readFraction? cs
  let (_, cs) ← readExponent? cs
  return cs

end TableStore.Json
