import TableStore.Number.Layout
import TableStore.Schema.ColumnType

/-!
# Values

- a value is NULL, a boolean, an integer of 64 bits, a real of 64 bits or a text; two values are equal when they are
  of the same kind and their contents are the same, reals bit by bit;
- `sqlEq` is the equality of conditions: numbers are equal when their exact values are, and NULL equals nothing;
- `display` is a value as it is shown to users.
-/

namespace TableStore

/-- A value. -/
inductive Value where
  | null
  | boolean (b : Bool)
  | integer (i : Int64)
  | real (r : Binary64)
  | text (s : String)
  deriving DecidableEq, Repr

/-- A real as it is shown: every digit in place, and words for infinities and NaNs. -/
def Binary64.display (r : Binary64) : List Char :=
  if r.isNaN then ['N', 'a', 'N']
  else if r.isFinite then (Decimal.shortest .up r).positional
  else if r.negative then ['-', 'i', 'n', 'f'] else ['i', 'n', 'f']

namespace Value

/-- Whether a value is NULL. -/
def isNull : Value → Bool
  | .null => true
  | _ => false

/-- The nearest real of a number. -/
def toReal? : Value → Option Binary64
  | .integer i => some (.ofInt i.toInt)
  | .real r => some r
  | _ => none

/-- The text of a text. -/
def text? : Value → Option String
  | .text s => some s
  | _ => none

/-- The column type that a value declares. -/
def inferredType : Value → ColumnType
  | .integer _ => .integer
  | .real _ => .real
  | _ => .text

/-- The equality of conditions. -/
def sqlEq : Value → Value → Bool
  | .null, _ => false
  | _, .null => false
  | .integer i, .integer j => i == j
  | .integer i, .real r => Binary64.compareInt i r == some .eq
  | .real r, .integer i => Binary64.compareInt i r == some .eq
  | .real r, .real s => r.sameValue s
  | a, b => a == b

/-- A value as it is shown. -/
def display : Value → String
  | .null => "NULL"
  | .boolean true => "TRUE"
  | .boolean false => "FALSE"
  | .integer i => String.ofList (Decimal.integer i.toInt)
  | .real r => String.ofList r.display
  | .text s => s

end Value

end TableStore
