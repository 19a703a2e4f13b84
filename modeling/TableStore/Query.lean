import TableStore.ResultSet
import TableStore.Session
import TableStore.Statement

/-!
# Queries

- `matching` tells which keys a condition picks in a container: by key, its value is looked up whatever column it
  names; by column, every record is picked whose column has an equal value, with a look-up for the key column;
- `select` shows records of an image; `insert` and `delete` are bodies of transactions that give the number of rows;
- a column that a record does not have is shown as NULL, and all rows of an insertion go in or none.
-/

namespace TableStore

/-- How conditions pick records. -/
inductive Matching where
  /-- The value is a key, whatever column is named. -/
  | key
  /-- The named column has the value. -/
  | column
  deriving DecidableEq, Repr

namespace Query

/-! ## Conditions -/

/-- The key that a value is, if there is a record under it. -/
def lookUp (c : Container) (v : Value) : List Key :=
  match Key.ofValue? v with
  | some k => if c.records.contains k then [k] else []
  | none => []

/-- The key of a record, if a condition holds of the record. -/
def keyIf (c : Container) (condition : Condition) (r : Record) : Option Key :=
  match r.find? condition.column with
  | some v => if v.sqlEq condition.value then Key.ofValue? (r.valueOf c.keyPath) else none
  | none => none

/-- The keys that a condition picks. -/
def matching (m : Matching) (condition : Condition) (c : Container) : List Key :=
  match m with
  | .key => lookUp c condition.value
  | .column =>
    if condition.column = c.keyPath then lookUp c condition.value else c.scan.filterMap (keyIf c condition)

/-! ## Selections -/

/-- The columns of a table in the catalog; none if it is not there. -/
def columnsOf (i : Image) (table : String) : List String :=
  match i.catalog.find? table with
  | some t => t.columnNames
  | none => []

/-- The values of columns in a record. -/
def project (columns : List String) (r : Record) : List Value := columns.map r.valueOf

/-- The records that a condition picks; all of them without one. -/
def chosen (m : Matching) (condition : Option Condition) (c : Container) : List Record :=
  match condition with
  | some condition => (matching m condition c).filterMap c.find?
  | none => c.scan

/-- The rows of a selection. -/
def select (m : Matching) (projection : Projection) (table : String) (condition : Option Condition) (i : Image) :
    Except Error ResultSet :=
  match i.find? table with
  | none => .error (.tableNotFound table)
  | some c =>
    let columns := match projection with
      | .all => columnsOf i table
      | .columns names => names
    .ok { columns, rows := (chosen m condition c).map (project columns) }

/-! ## Changes -/

/-- Adds a row of values for columns. -/
def addRow (columns : List String) (row : List Value) : Attempt Container Unit :=
  if row.length = columns.length then
    .whole fun c => (c.add (.ofList (columns.zip row))).map fun kc => ((), kc.2)
  else .fail (.columnCountMismatch columns.length row.length)

/-- Adds rows up to the first that fails. -/
def addRows (columns : List String) : List (List Value) → Attempt Container Unit := Attempt.forEach (addRow columns)

/-- The container without the records of keys, and how many there were. -/
def deleteKeys (keys : List Key) (c : Container) : Nat × Container :=
  keys.foldl (fun nc k => ((if (nc.2.delete k).1 then nc.1 + 1 else nc.1), (nc.2.delete k).2)) (0, c)

/-- Adds rows to a table, and gives their number. -/
def insert (table : String) (columns : Option (List String)) (rows : List (List Value)) : Attempt Image Nat := do
  let columns ← Attempt.read fun i =>
    if i.contains table then .ok (columns.getD (columnsOf i table)) else .error (.tableNotFound table)
  Transaction.edit table (addRows columns rows)
  pure rows.length

/-- Deletes the records that a condition picks, and gives their number. -/
def delete (m : Matching) (table : String) (condition : Condition) : Attempt Image Nat := do
  let _ ← Attempt.read fun i => if i.contains table then .ok () else .error (.tableNotFound table)
  Transaction.edit table (.whole fun c => .ok (deleteKeys (matching m condition c) c))

end Query

end TableStore
