import TableStore.Number.Decimal

/-!
# Numbers as they are written

- a numeral has an optional sign, digits with at most one point among or beside them, and an optional exponent; at
  least one digit stands beside the point (`Numeral.read?`);
- a numeral is a decimal number (`toDecimal`); without point and exponent it is an integer (`toInt?`).
-/

namespace TableStore

/-- A number as it is written. -/
structure Numeral where
  /-- Whether it starts with a minus sign. -/
  negative : Bool
  /-- The digits before the point. -/
  whole : List Char
  /-- The digits after the point, if there is a point. -/
  fraction : Option (List Char)
  /-- The sign and the digits of the exponent, if there is one. -/
  exponent : Option (Bool × List Char)
  deriving DecidableEq, Repr

namespace Numeral

open Text

/-- An optional sign and the rest. -/
def readSign : List Char → Bool × List Char
  | '-' :: cs => (true, cs)
  | '+' :: cs => (false, cs)
  | cs => (false, cs)

/-- The exponent that makes up the whole rest. -/
def readExponent? : List Char → Option (Option (Bool × List Char))
  | [] => some none
  | c :: cs =>
    let (negative, ds) := readSign cs
    if (c == 'e' || c == 'E') && !ds.isEmpty && ds.all isDigit then some (some (negative, ds)) else none

/-- The numeral that a text is. -/
def read? (cs : List Char) : Option Numeral :=
  let (negative, cs) := readSign cs
  let whole := cs.takeWhile isDigit
  match cs.dropWhile isDigit with
  | '.' :: cs =>
    let fraction := cs.takeWhile isDigit
    if whole.isEmpty && fraction.isEmpty then none
    else (readExponent? (cs.dropWhile isDigit)).map fun e => ⟨negative, whole, some fraction, e⟩
  | cs => if whole.isEmpty then none else (readExponent? cs).map fun e => ⟨negative, whole, none, e⟩

/-- The power of ten that the exponent stands for. -/
def power (n : Numeral) : Int :=
  match n.exponent with
  | none => 0
  | some (true, ds) => -(Decimal.natOfDigits ds : Int)
  | some (false, ds) => Decimal.natOfDigits ds

/-- The decimal number. -/
def toDecimal (n : Numeral) : Decimal :=
  let fraction := n.fraction.getD []
  ⟨n.negative, Decimal.natOfDigits (n.whole ++ fraction), n.power - fraction.length⟩

/-- The integer, if there is neither a point nor an exponent. -/
def toInt? (n : Numeral) : Option Int :=
  match n.fraction, n.exponent with
  | none, none => some (if n.negative then -(Decimal.natOfDigits n.whole : Int) else Decimal.natOfDigits n.whole)
  | _, _ => none

example : (read? "-1.50e+3".toList).map toDecimal = some ⟨true, 150, 1⟩ := by decide
example : (read? "1.".toList).isSome ∧ (read? ".5".toList).isSome ∧ read? ".".toList = none := by decide
example : read? "1e".toList = none ∧ read? "1e5.5".toList = none ∧ read? "".toList = none := by decide

end Numeral

end TableStore
