import TableStore.Value
import TableStore.Number.Numeral
import TableStore.Text.Blank
import TableStore.Text.Quoted
import TableStore.Text.Upper

/-!
# Literals

- `readNumber?` reads a text that is a number: an integer if it has neither point nor exponent and fits into 64 bits,
  and the nearest real otherwise;
- `read` reads any text as a value: what stands between quotes is a text, `NULL` is NULL, numbers are numbers, and
  all else is kept as text;
- `write` writes a value as a literal that reads back to it; reals that are not finite are written as NULL.
-/

namespace TableStore.Literal

open Text

/-- The value of a number as it is written. -/
def ofNumeral (n : Numeral) : Value :=
  match n.toInt?.bind int64? with
  | some i => .integer i
  | none => .real n.toDecimal.toBinary64

/-- The value of a text that is a number. -/
def readNumber? (cs : List Char) : Option Value := (Numeral.read? cs).map ofNumeral

/-- The text between quotes, single or double, that make up the whole. -/
def readQuotes? (cs : List Char) : Option (List Char) := (unquote? '\'' cs).or (unquote? '"' cs)

/-- The value of a text. -/
def read (cs : List Char) : Value :=
  let cs := trim cs
  match readQuotes? cs with
  | some s => .text (String.ofList s)
  | none =>
    if sameLetters cs ['n', 'u', 'l', 'l'] then .null
    else (readNumber? cs).getD (.text (String.ofList cs))

/-- A finite real with a point in it. -/
def writeReal (r : Binary64) : List Char :=
  let cs := (Decimal.shortest .up r).positional
  if cs.contains '.' then cs else cs ++ ['.', '0']

/-- A value as a literal. -/
def write : Value → List Char
  | .null => "NULL".toList
  | .boolean true => "TRUE".toList
  | .boolean false => "FALSE".toList
  | .integer i => Decimal.integer i.toInt
  | .real r => if r.isFinite then writeReal r else "NULL".toList
  | .text s => enclose '\'' s.toList

example : read " 'it''s' ".toList = .text "it's" := by decide
example : read "-12".toList = .integer (-12) := by decide
example : read "nULL".toList = .null := by decide
example : read "12abc".toList = .text "12abc" := by decide

end TableStore.Literal
