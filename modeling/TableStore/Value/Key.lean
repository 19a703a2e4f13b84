import TableStore.Value
import TableStore.Text.Utf8

/-!
# Keys

- records are filed under keys; integers, texts and reals other than NaN can be keys (`ofValue?`), and a real that is
  an integer of 64 bits is the same key as the integer;
- numbers come before texts, numbers are ordered by their exact values and texts by their bytes (`Key.compare`).
-/

namespace TableStore

/-- A key. -/
inductive Key where
  | integer (i : Int64)
  | real (r : Binary64)
  | text (s : String)
  deriving DecidableEq, Repr

namespace Key

/-- The key that a value is. -/
def ofValue? : Value → Option Key
  | .integer i => some (.integer i)
  | .real r =>
    if r.isNaN then none
    else match r.toInt64? with
      | some i => some (.integer i)
      | none => some (.real r)
  | .text s => some (.text s)
  | .null => none
  | .boolean _ => none

/-- The value of a key. -/
def toValue : Key → Value
  | .integer i => .integer i
  | .real r => .real r
  | .text s => .text s

/-- The order of keys; a NaN would come after all integers. -/
protected def compare : Key → Key → Ordering
  | .integer i, .integer j => Ord.compare i.toInt j.toInt
  | .text s, .text t => Text.compareBytes s t
  | .text _, _ => .gt
  | _, .text _ => .lt
  | .real r, .real s => r.compareTotal s
  | .integer i, .real r => (Binary64.compareInt i r).getD .lt
  | .real r, .integer i => ((Binary64.compareInt i r).map Ordering.swap).getD .gt

instance : Ord Key := ⟨Key.compare⟩

/-- A key as it is shown: texts stand between single quotes. -/
def display : Key → String
  | .integer i => (Value.integer i).display
  | .real r => (Value.real r).display
  | .text s => "'" ++ s ++ "'"

end Key

end TableStore
