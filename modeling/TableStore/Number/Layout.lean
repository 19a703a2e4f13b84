import TableStore.Number.Shortest

/-!
# Numbers as text

- `integer` writes an integer;
- `positional` writes every digit in its place and never an exponent, and no point unless a digit follows it;
- `withPoint` writes numbers of moderate size in place with at least one digit after the point, and all others with
  one digit before the point and an exponent that has a sign.
-/

namespace TableStore.Decimal

/-- An integer: its digits after a minus sign if it is negative. -/
def integer (i : Int) : List Char := if i < 0 then '-' :: digits i.natAbs else digits i.natAbs

/-- Zeros. -/
def zeros (n : Nat) : List Char := List.replicate n '0'

/-- The sign of a decimal. -/
def sign (d : Decimal) : List Char := if d.negative then ['-'] else []

/-- How many digits stand before the point; zeros follow the point when it is negative. -/
def pointPlace (d : Decimal) : Int := (digits d.coefficient).length + d.exponent

/-- The digits in place, without a sign; `tail` is written after a whole number. -/
def placed (d : Decimal) (tail : List Char) : List Char :=
  let ds := digits d.coefficient
  match d.pointPlace with
  | .negSucc n => '0' :: '.' :: (zeros (n + 1) ++ ds)
  | .ofNat 0 => '0' :: '.' :: ds
  | .ofNat n =>
    if n < ds.length then ds.take n ++ '.' :: ds.drop n else ds ++ zeros (n - ds.length) ++ tail

/-- The digits in place: `100`, `-0`, `0.00001`. -/
def positional (d : Decimal) : List Char := d.sign ++ d.placed []

/-- The digits with an exponent: `1e+16`, `1.5e-6`. -/
def scientific (d : Decimal) : List Char :=
  let mantissa := match digits d.coefficient with
    | c :: c' :: cs => c :: '.' :: c' :: cs
    | cs => cs
  let place := d.pointPlace - 1
  d.sign ++ mantissa ++ 'e' :: (if place < 0 then '-' else '+') :: digits place.natAbs

/-- In place with a point for leading digits from the fifth place after the point to the sixteenth before it, with
an exponent otherwise: `100000.0`, `0.00001`, `1e+16`. -/
def withPoint (d : Decimal) : List Char :=
  let place := d.pointPlace - 1
  if -5 ≤ place && place ≤ 15 then d.sign ++ d.placed ['.', '0'] else d.scientific

example : positional ⟨true, 0, 0⟩ = "-0".toList := by decide
example : positional ⟨false, 25, -1⟩ = "2.5".toList := by decide
example : positional ⟨false, 5, -5⟩ = "0.00005".toList := by decide
example : withPoint ⟨false, 1, 5⟩ = "100000.0".toList := by decide
example : withPoint ⟨false, 15, -7⟩ = "1.5e-6".toList := by decide
example : withPoint ⟨false, 1, 16⟩ = "1e+16".toList := by decide

end TableStore.Decimal
