import TableStore.Image
import TableStore.Json.Record
import TableStore.Json.Table

/-!
# Keyspaces

- a keyspace keeps an image as JSON texts: a table definition per table, and a partition per container with a record
  under the text of each key;
- a commit writes what a change set names; a new container gets a partition that was never used before, and the next
  key of a container is written when it has moved together with a record;
- loading reads everything back in the order of the bytes of the texts and computes the keys from the records, so
  what JSON does not tell apart is not told apart afterwards: an infinity comes back as NULL.
-/

namespace TableStore

/-- Where and how a container is kept. -/
structure Shelf where
  partition : Nat
  keyPath : String
  autoIncrement : Bool
  nextKey : Int64
  deriving DecidableEq

/-- A store of texts. -/
structure Keyspace where
  /-- The version of the image, once there is one. -/
  version : Option Nat := none
  /-- The partition of the next new container. -/
  nextPartition : Nat := 1
  /-- The containers by name. -/
  shelves : OrderedMap String Shelf := .empty
  /-- The texts of the table definitions, by table. -/
  tables : OrderedMap String String := .empty
  /-- The texts of the records by the texts of their keys, for each partition. -/
  partitions : OrderedMap Nat (OrderedMap String String) := .empty
  deriving DecidableEq

namespace Keyspace

/-- The texts in a partition. -/
def texts (k : Keyspace) (partition : Nat) : OrderedMap String String := (k.partitions.find? partition).getD .empty

/-! ## Writing -/

/-- The text under which a record is kept. -/
def keyText (key : Key) : String := String.ofList (Json.writeKey key)

/-- The texts with a record. -/
def putRecord (texts : OrderedMap String String) (e : Key × Record) : OrderedMap String String :=
  texts.insert (keyText e.1) (String.ofList (Json.writeRecord e.2))

/-- The texts without the record of a key. -/
def eraseRecord (texts : OrderedMap String String) (key : Key) : OrderedMap String String := texts.erase (keyText key)

/-- The keyspace without a container and its partition. -/
def drop (k : Keyspace) (name : String) : Keyspace :=
  match k.shelves.find? name with
  | none => k
  | some shelf => { k with shelves := k.shelves.erase name, partitions := k.partitions.erase shelf.partition }

/-- The keyspace with a new container. -/
def create (k : Keyspace) (c : Container) : Keyspace :=
  { k with
    nextPartition := k.nextPartition + 1
    shelves := k.shelves.insert c.name ⟨k.nextPartition, c.keyPath, c.autoIncrement, c.nextKey⟩
    partitions := k.partitions.insert k.nextPartition (c.records.entries.foldl putRecord .empty) }

/-- The keyspace with the changed records of a container that has a place. -/
def writeChanges (k : Keyspace) (changes : Changes) (shelf : Shelf) : Keyspace :=
  let texts := changes.put.foldl putRecord (k.texts shelf.partition)
  { k with
    shelves := k.shelves.insert changes.name { shelf with nextKey := changes.nextKey }
    partitions := k.partitions.insert shelf.partition (changes.deleted.foldl eraseRecord texts) }

/-- The keyspace with the changed records of containers; those without any are passed over. -/
def update (k : Keyspace) : List Changes → Except Error Keyspace
  | [] => .ok k
  | changes :: rest =>
    if changes.isEmpty then update k rest
    else match k.shelves.find? changes.name with
      | none => .error (.containerNotFound changes.name)
      | some shelf => update (k.writeChanges changes shelf) rest

/-- The texts of a catalog. -/
def tableTexts (c : Catalog) : OrderedMap String String :=
  .ofList (c.list.map fun t => (t.name, String.ofList (Json.writeTable t)))

/-- The keyspace with a change set. -/
def commit (k : Keyspace) (changes : ChangeSet) : Except Error Keyspace := do
  let k := changes.dropped.foldl drop k
  let k := changes.created.foldl create k
  let k ← k.update changes.updated
  let tables := match changes.catalog with
    | some c => tableTexts c
    | none => k.tables
  .ok { k with version := some changes.version, tables }

/-! ## Reading -/

/-- A catalog with the tables of texts. -/
def readTables (c : Catalog) : List String → Except Error Catalog
  | [] => .ok c
  | t :: ts =>
    match Json.readTable? t.toList with
    | none => .error .unreadable
    | some table => readTables (c.put table) ts

/-- The container with the records of texts, one after another. -/
def readRecords (c : Container) : List String → Except Error Container
  | [] => .ok c
  | t :: ts =>
    match Json.readRecord? t.toList with
    | none => .error .unreadable
    | some r => do
      let c ← c.restore r
      readRecords c ts

/-- The container that is kept at a place. -/
def readShelf (k : Keyspace) (name : String) (shelf : Shelf) : Except Error Container :=
  readRecords { name, keyPath := shelf.keyPath, autoIncrement := shelf.autoIncrement, nextKey := shelf.nextKey }
    (k.texts shelf.partition).values

/-- Containers with those at the given places. -/
def readShelves (k : Keyspace) (containers : OrderedMap String Container) :
    List (String × Shelf) → Except Error (OrderedMap String Container)
  | [] => .ok containers
  | (name, shelf) :: rest => do
    let c ← k.readShelf name shelf
    readShelves k (containers.insert name c) rest

/-- The image that is kept, if there is one. -/
def load (k : Keyspace) : Except Error (Option Image) :=
  match k.version with
  | none => .ok none
  | some version => do
    let catalog ← readTables {} k.tables.values
    let containers ← k.readShelves .empty k.shelves.entries
    .ok (some { version, catalog, containers })

end Keyspace

end TableStore
