import TableStore.Number.Decimal

/-!
# The shortest decimal of a real

- `shortest` gives, for a finite real, the decimal with the fewest digits that reads back to the same real; of two
  such decimals the nearer one, and of two equally near ones the one that a rule chooses (`HalfRule`);
- on a grid of powers of ten only the two neighbours of the value come into question (`nearestOnGrid?`), and a grid
  of 17 digits always has one that reads back; the exact decimal stands behind the search as the last resort.
-/

namespace TableStore.Decimal

/-- Which of two decimals is taken when the value lies midway between them. -/
inductive HalfRule where
  /-- The one with the greater absolute value. -/
  | up
  /-- The one whose last digit is even. -/
  | even
  deriving DecidableEq, Repr

/-- The decimal digits of a number, without leading zeros. -/
def digits (n : Nat) : List Char := Nat.toDigits 10 n

/-- The power of ten of the leading digit of a positive ratio. -/
def leadingPlace (num den : Nat) : Int :=
  if den ≤ num then ((digits (num / den)).length : Int) - 1
  else
    let places := (digits (den / num)).length
    if den ≤ num * Nat.pow 10 (places - 1) then 1 - (places : Int) else -(places : Int)

/-- The ratio in units of a power of ten. -/
def inUnitsOf (num den : Nat) : Int → Nat × Nat
  | .ofNat n => (num, den * Nat.pow 10 n)
  | .negSucc n => (num * Nat.pow 10 (n + 1), den)

/-- Whether a coefficient and an exponent read back to a rank. -/
def readsAs (goal : Nat) (exponent : Int) (coefficient : Nat) : Bool := rank coefficient exponent == goal

/-- The nearer neighbour of a ratio among the multiples of a power of ten that reads back to a rank. -/
def nearestOnGrid? (rule : HalfRule) (goal num den : Nat) (exponent : Int) : Option (Nat × Int) :=
  let (a, b) := inUnitsOf num den exponent
  let below := a / b
  let above := below + 1
  match readsAs goal exponent below, readsAs goal exponent above with
  | false, false => none
  | true, false => some (below, exponent)
  | false, true => some (above, exponent)
  | true, true =>
    match compare (2 * (a % b)) b, rule with
    | .lt, _ => some (below, exponent)
    | .gt, _ => some (above, exponent)
    | .eq, .up => some (above, exponent)
    | .eq, .even => some (below + below % 2, exponent)

/-- The coefficient 10 written as 1 with the next power of ten; it is the only one that can end with a zero, when a
value just below a power of ten is rounded up to one digit. -/
def withoutZero : Nat × Int → Nat × Int
  | (10, exponent) => (1, exponent + 1)
  | d => d

/-- The coefficient of the unit of reals as a decimal; its exponent is -1074. -/
def unitCoefficient : Nat := Nat.pow 5 1074

/-- The coefficient and exponent of the shortest decimal of a positive finite real. -/
def shortestParts (rule : HalfRule) (r : Binary64) : Nat × Int :=
  let place := leadingPlace r.units Binary64.one
  let found := (List.range 17).findSome? fun n : Nat => nearestOnGrid? rule r.rank r.units Binary64.one (place - n)
  withoutZero (found.getD (r.units * unitCoefficient, -1074))

/-- The shortest decimal of a finite real. -/
def shortest (rule : HalfRule) (r : Binary64) : Decimal :=
  if r.rank = 0 then ⟨r.negative, 0, 0⟩
  else
    let parts := shortestParts rule r
    ⟨r.negative, parts.1, parts.2⟩

end TableStore.Decimal
