import TableStore.Schema.ColumnType

/-!
# Table definitions

- a table has a name and columns in order; its first column is its key column (`Table.keyColumn?`).
-/

namespace TableStore

/-- A column: its name and its declared type. -/
structure Column where
  name : String
  type : ColumnType
  deriving DecidableEq, Repr

/-- A table definition. -/
structure Table where
  name : String
  /-- The columns in the order of their declaration. -/
  columns : List Column
  deriving DecidableEq, Repr

namespace Table

/-- The column whose values are the keys of the records. -/
def keyColumn? (t : Table) : Option Column := t.columns.head?

/-- The names of the columns. -/
def columnNames (t : Table) : List String := t.columns.map Column.name

end Table

end TableStore
