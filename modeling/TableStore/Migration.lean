import TableStore.Work

/-!
# Migrations

- a migration is one change of which tables there are: create, drop, rename, or create with records;
- it changes the containers and the catalog of an upgrade together (`Migration.run`); one that fails has perhaps done
  a part of its work, which the end of the upgrade undoes.
-/

namespace TableStore

/-- A change of which tables there are. -/
inductive Migration where
  /-- An empty table whose keys are generated. -/
  | create (table : Table)
  /-- Drops a table; a missing one is no failure. -/
  | drop (name : String)
  /-- Gives a table and its records another name. -/
  | rename (source target : String)
  /-- A table with records, which must have keys. -/
  | load (table : Table) (records : List Record)
  deriving DecidableEq

namespace Migration

/-- The name of the key column of a table that can be created: it has a column, and its name is free. -/
def newKeyPath (table : Table) (u : Upgrade) : Except Error String :=
  match table.keyColumn? with
  | none => .error (.emptyColumnList table.name)
  | some key =>
    if u.image.catalog.contains table.name || u.image.contains table.name then
      .error (.tableAlreadyExists table.name)
    else .ok key.name

/-- The definition and the container of a table that can get another name; nothing if it has that name already. -/
def renameParts (source target : String) (u : Upgrade) : Except Error (Option (Table × Container)) :=
  match u.image.catalog.find? source with
  | none => .error (.tableNotFound source)
  | some table =>
    if source = target then .ok none
    else if u.image.catalog.contains target || u.image.contains target then .error (.tableAlreadyExists target)
    else match u.image.find? source with
      | none => .error (.containerNotFound source)
      | some c => .ok (some (table, c))

/-- Adds records to a container, up to the first that fails. -/
def addAll (name : String) : List Record → Attempt Upgrade Unit :=
  Attempt.forEach fun r => Upgrade.edit name (.whole fun c => (c.add r).map fun kc => ((), kc.2))

/-- Puts records into a container. -/
def putAll (name : String) : List Record → Attempt Upgrade Unit :=
  Attempt.forEach fun r => Upgrade.edit name (.whole fun c => (c.put r).map fun kc => ((), kc.2))

/-- Makes the change. -/
def run : Migration → Attempt Upgrade Unit
  | .create table => do
    let keyPath ← Attempt.read (newKeyPath table)
    let _ ← Upgrade.create table.name keyPath true
    Upgrade.editCatalog (·.put table)
  | .drop name => do
    let _ ← Upgrade.delete name
    Upgrade.editCatalog (·.erase name)
  | .rename source target => do
    match ← Attempt.read (renameParts source target) with
    | none => pure ()
    | some (table, c) =>
      let _ ← Upgrade.create target c.keyPath c.autoIncrement
      putAll target c.scan
      let _ ← Upgrade.delete source
      Upgrade.editCatalog fun catalog => (catalog.erase source).put ⟨target, table.columns⟩
  | .load table records => do
    let keyPath ← Attempt.read (newKeyPath table)
    let _ ← Upgrade.create table.name keyPath false
    addAll table.name records
    Upgrade.editCatalog (·.put table)

/-- Makes several changes, up to the first that fails. -/
def runAll : List Migration → Attempt Upgrade Unit := Attempt.forEach run

/-- A migration as it is shown. -/
def describe : Migration → String
  | .create t => "create table " ++ Error.shown t.name
  | .drop name => "drop table " ++ Error.shown name
  | .rename source target => "rename table " ++ Error.shown source ++ " to " ++ Error.shown target
  | .load t records =>
    "materialize table " ++ Error.shown t.name ++ " (" ++ toString records.length ++ " rows)"

end Migration

end TableStore
