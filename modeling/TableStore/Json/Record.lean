import TableStore.Json.Grammar
import TableStore.Value.Key
import TableStore.Value.Record

/-!
# Values and records as JSON

- NULL, booleans, numbers and texts are written plainly, so the kind of a value is told by the shape of its text;
  infinities and NaNs are written as `null`;
- a record is an object with its names in order; reading takes plain values only, and a name that comes again gets
  the later value (`readRecord?`).
-/

namespace TableStore.Json

/-- A value. -/
def writeValue : Value → List Char
  | .null => ['n', 'u', 'l', 'l']
  | .boolean true => ['t', 'r', 'u', 'e']
  | .boolean false => ['f', 'a', 'l', 's', 'e']
  | .integer i => Decimal.integer i.toInt
  | .real r => writeReal r
  | .text s => writeText s.toList

/-- A plain value and the rest. -/
def readValue? (cs : List Char) : Option (Value × List Char) :=
  match skipSpace cs with
  | '"' :: cs => (readRest? false cs).map fun r => (.text (String.ofList r.1), r.2)
  | 'n' :: cs => (word? ['u', 'l', 'l'] cs).map fun cs => (.null, cs)
  | 't' :: cs => (word? ['r', 'u', 'e'] cs).map fun cs => (.boolean true, cs)
  | 'f' :: cs => (word? ['a', 'l', 's', 'e'] cs).map fun cs => (.boolean false, cs)
  | cs => readNumber? cs

/-- A key, as the value that it is. -/
def writeKey (k : Key) : List Char := writeValue k.toValue

/-- A name with its value. -/
def writeCell (c : String × Value) : List Char := writeMember c.1 (writeValue c.2)

/-- A record. -/
def writeRecord (r : Record) : List Char := writeObject (r.cells.map writeCell)

/-- The record with the value of one more name. -/
def readCell? (name : List Char) (r : Record) (cs : List Char) : Option (Record × List Char) :=
  (readValue? cs).map fun v => (r.set (String.ofList name) v.1, v.2)

/-- The record that a text is. -/
def readRecord? (cs : List Char) : Option Record :=
  whole? (fun cs => (expect? '{' cs).bind (readMembers? false readCell? .empty)) cs

end TableStore.Json
