import TableStore.Schema.Table
import TableStore.Value.Literal
import TableStore.Value.Record

/-!
# Statements

- a `Statement` is one command: create a table, with columns or from literal rows, drop it, select, insert or delete
  rows;
- the literal rows of a new table give its definition and its records (`literalTable`): the first row must name all
  of its items, and the later ones must be as long as the first.
-/

namespace TableStore

/-- A condition: the column has the value. -/
structure Condition where
  column : String
  value : Value
  deriving DecidableEq, Repr

/-- The columns that a selection shows. -/
inductive Projection where
  /-- All columns, as the table declares them. -/
  | all
  /-- The named ones. -/
  | columns (names : List String)
  deriving DecidableEq, Repr

/-- An item of a literal row. -/
structure Item where
  /-- The item as it is written. -/
  text : String
  value : Value
  /-- The name that is given to the item. -/
  name : Option String
  deriving DecidableEq, Repr

/-- A command. -/
inductive Statement where
  | create (table : Table)
  | createAs (table : String) (rows : List (List Item))
  | drop (table : String)
  | select (projection : Projection) (table : String) (condition : Option Condition)
  | insert (table : String) (columns : Option (List String)) (rows : List (List Value))
  | delete (table : String) (condition : Option Condition)
  deriving DecidableEq, Repr

namespace Statement

/-- Whether a command changes which tables there are. -/
def changesSchema : Statement → Bool
  | .create _ | .createAs .. | .drop _ => true
  | _ => false

/-- The columns and cells of the first literal row. -/
def firstRow : List Item → Except Error (List Column × List (String × Value))
  | [] => .ok ([], [])
  | item :: items =>
    match item.name with
    | none => .error (.missingAlias item.text)
    | some name => do
      let (columns, cells) ← firstRow items
      return (⟨name, item.value.inferredType⟩ :: columns, (name, item.value) :: cells)

/-- The record of a later literal row. -/
def laterRow (columns : List Column) (items : List Item) : Except Error Record :=
  if items.length = columns.length then
    .ok (.ofList (columns.zipWith (fun c i => (c.name, i.value)) items))
  else .error (.columnCountMismatch columns.length items.length)

/-- The table that literal rows define, and its records. -/
def literalTable (name : String) : List (List Item) → Except Error (Table × List Record)
  | [] => .error (.unexpectedEnd (.token (.keyword .select)))
  | first :: later => do
    let (columns, cells) ← firstRow first
    let records ← later.mapM (laterRow columns)
    return (⟨name, columns⟩, .ofList cells :: records)

end Statement

end TableStore
