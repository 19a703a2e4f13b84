import TableStore.Json.Record

/-!
# Result sets

- a result set is what a statement gives: columns, rows of values, and whether the set of tables has changed;
- a statement without rows of its own gives one row with a message in the column `status` (`ResultSet.status`), and
  `message?` finds that message again (`message?_status`);
- `write` is a result set as JSON.
-/

namespace TableStore

/-- Columns and rows. -/
structure ResultSet where
  columns : List String
  rows : List (List Value)
  schemaChanged : Bool := false
  deriving DecidableEq

namespace ResultSet

/-- The column of messages. -/
def statusColumn : String := "status"

/-- The result set of a message. -/
def status (message : String) : ResultSet := { columns := [statusColumn], rows := [[.text message]] }

/-- The message, if the only column is the column of messages, there is one row, and a text comes first in it. -/
def message? (r : ResultSet) : Option String :=
  if r.columns = [statusColumn] then
    match r.rows with
    | [v :: _] => v.text?
    | _ => none
  else none

/-- The message of a result set that was made of one. -/
theorem message?_status (message : String) : (status message).message? = some message := rfl

/-- A row as JSON. -/
def writeRow (row : List Value) : List Char := Json.writeArray (row.map Json.writeValue)

/-- A result set as JSON. -/
def write (r : ResultSet) : List Char :=
  Json.writeObject [
    Json.writeMember "columns" (Json.writeArray (r.columns.map fun c => Json.writeText c.toList)),
    Json.writeMember "rows" (Json.writeArray (r.rows.map writeRow)),
    Json.writeMember "schema_changed" (Json.writeValue (.boolean r.schemaChanged))]

end ResultSet

end TableStore
