import TableStore.Demo
import TableStore.Query
import TableStore.Statement.Parse
import TableStore.Statement.Print

/-!
# The engine

- the engine carries out statements on a session: those that change which tables there are as upgrades, the others as
  transactions or reads (`execute`);
- `run` takes the text of a statement; like everything that users ask for by name it opens the store first, and a new
  store is filled with the demo tables if the settings say so (`ready`);
- `dump` writes a table as the statements that insert its records, in the order of the keys.
-/

namespace TableStore

/-- The settings of an engine. -/
structure Settings where
  /-- Whether a new store is filled with the demo tables. -/
  seeded : Bool := true
  /-- How conditions pick records. -/
  matching : Matching := .key
  deriving DecidableEq

namespace Engine

/-! ## Opening -/

/-- Opens the store, and tells whether it was created. -/
def ready (settings : Settings) : Attempt Session Bool := do
  let outcome ← Session.openWith (if settings.seeded then Demo.fill else pure ())
  pure (outcome == .created)

/-- All table definitions. -/
def tables (settings : Settings) : Attempt Session (List Table) := do
  let _ ← ready settings
  Session.read fun i => .ok i.catalog.list

/-- The version of the store. -/
def version (settings : Settings) : Attempt Session Nat := do
  let _ ← ready settings
  Session.read fun i => .ok i.version

/-! ## Statements -/

/-- Makes migrations in one upgrade, and gives the version after it. -/
def migrate (ms : List Migration) : Attempt Session Nat :=
  Session.upgrade do
    Migration.runAll ms
    Attempt.read fun u => .ok u.image.version

/-- Carries out a statement, without the mark of a changed set of tables. -/
def perform (m : Matching) : Statement → Attempt Session ResultSet
  | .create table => do
    let _ ← migrate [.create table]
    pure (.status ("Table " ++ Error.shown table.name ++ " created successfully."))
  | .createAs name rows => do
    let (table, records) ← Attempt.read fun _ => Statement.literalTable name rows
    let _ ← migrate [.load table records]
    pure (.status ("Table " ++ Error.shown name ++ " created with " ++ toString records.length ++ " rows."))
  | .drop name => do
    let _ ← migrate [.drop name]
    pure (.status ("Table " ++ Error.shown name ++ " dropped successfully."))
  | .select projection table condition => Session.read (Query.select m projection table condition)
  | .insert table columns rows => do
    let n ← Session.write (Query.insert table columns rows)
    pure (.status (toString n ++ " row(s) inserted into " ++ Error.shown table ++ "."))
  | .delete table none => Attempt.fail (.deleteWithoutWhere table)
  | .delete table (some condition) => do
    let n ← Session.write (Query.delete m table condition)
    pure (.status (toString n ++ " row(s) deleted from " ++ Error.shown table ++ "."))

/-- Carries out a statement. -/
def execute (m : Matching) (s : Statement) : Attempt Session ResultSet := do
  let r ← perform m s
  pure (if s.changesSchema then { r with schemaChanged := true } else r)

/-- Reads a statement and carries it out. -/
def run (settings : Settings) (text : String) : Attempt Session ResultSet := do
  let _ ← ready settings
  let s ← Attempt.read fun _ => Statement.parse text
  execute settings.matching s

/-! ## Tables as a whole -/

/-- Gives a table another name. -/
def rename (settings : Settings) (source target : String) : Attempt Session Unit := do
  let _ ← ready settings
  let _ ← migrate [.rename source target]
  pure ()

/-- The statement that inserts a record: with the columns of the catalog, or its own if the table is not there. -/
def insertion (i : Image) (table : String) (r : Record) : Statement :=
  let columns := match i.catalog.find? table with
    | some t => t.columnNames
    | none => r.names
  .insert table (some columns) [Query.project columns r]

/-- The statements that insert the records of a table. -/
def insertions (table : String) (i : Image) : Except Error (List Statement) :=
  match i.find? table with
  | none => .error (.tableNotFound table)
  | some c => .ok (c.scan.map (insertion i table))

/-- The texts of the statements that insert the records of a table. -/
def dump (settings : Settings) (table : String) : Attempt Session (List String) := do
  let _ ← ready settings
  Session.read fun i => (insertions table i).map (·.map fun s => String.ofList s.write)

end Engine

end TableStore
