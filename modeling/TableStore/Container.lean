import TableStore.Error
import TableStore.OrderedMap
import TableStore.Value.Key
import TableStore.Value.Record

/-!
# Containers

- a container holds the records of a table under the values of its key column (`keyPath`); one with a key generator
  (`autoIncrement`) gives integers in turn to records that come without a key, and writes them into the records;
- `nextKey` is beyond every integer key that was stored, up to the greatest integer, where the generator stops;
- while a journal is open, every change is noted with what was there before, the newest first; `changes?` tells which
  keys were touched and what they hold, `rollback` undoes the changes one by one.
-/

namespace TableStore

/-- What was changed since the journal was opened. -/
structure Journal where
  /-- The next key at that time. -/
  nextKey : Int64
  /-- The keys that were changed with the record that each of them held, the newest first. -/
  prior : List (Key × Option Record) := []
  deriving DecidableEq

/-- The keys in a journal, each once, in order. -/
def Journal.touched (j : Journal) : List Key :=
  (j.prior.foldr (fun change keys => if keys.contains change.1 then keys else keys.insert change.1 ())
    (.empty : OrderedMap Key Unit)).keys

/-- A keyed collection of records. -/
structure Container where
  name : String
  /-- The name of the key column. -/
  keyPath : String
  /-- Whether records without a key are given one. -/
  autoIncrement : Bool
  /-- The next key that is given out. -/
  nextKey : Int64 := 1
  records : OrderedMap Key Record := .empty
  journal : Option Journal := none
  deriving DecidableEq

/-- The records of a container that were changed. -/
structure Changes where
  name : String
  nextKey : Int64
  /-- The keys that hold a record, with that record. -/
  put : List (Key × Record)
  /-- The keys that hold no record. -/
  deleted : List Key
  deriving DecidableEq

/-- Whether no record was changed. -/
def Changes.isEmpty (c : Changes) : Bool := c.put.isEmpty && c.deleted.isEmpty

namespace Container

/-! ## Keys -/

/-- The key of a record, and the record with it. -/
def keyed (c : Container) (r : Record) : Except Error (Key × Record) :=
  match r.valueOf c.keyPath with
  | .null =>
    if c.autoIncrement then
      .ok (.integer c.nextKey, r.setFirst c.keyPath (.integer c.nextKey))
    else .error (.missingKey c.name c.keyPath)
  | v =>
    match Key.ofValue? v with
    | some k => .ok (k, r)
    | none => .error (.invalidKey c.name v.display)

/-- The integer after an integer; the greatest one stays. -/
def successor (i : Int64) : Int64 := if i = Int64.maxValue then i else i + 1

/-- The next key after a key has been stored. A real moves it past its whole part if that has come so far. -/
def nextKeyAfter (next : Int64) : Key → Int64
  | .integer i => if next ≤ successor i then successor i else next
  | .real r =>
    if !r.isNaN && (Binary64.ofInt next.toInt).signedUnits ≤ r.floor * Binary64.one &&
        r.floor ≤ Int64.maxValue.toInt then
      Int64.ofInt (r.floor + 1)
    else next
  | .text _ => next

/-! ## Changes -/

/-- The container with a change noted in its journal, if one is open. -/
def note (c : Container) (k : Key) (prior : Option Record) : Container :=
  { c with journal := c.journal.map fun j => { j with prior := (k, prior) :: j.prior } }

/-- The container with a record under a key. -/
def store (c : Container) (k : Key) (r : Record) : Container :=
  { c.note k (c.records.find? k) with
    nextKey := if c.autoIncrement then nextKeyAfter c.nextKey k else c.nextKey
    records := c.records.insert k r }

/-- Adds a record under a key that is free, and gives the key. -/
def add (c : Container) (r : Record) : Except Error (Key × Container) :=
  match c.keyed r with
  | .error e => .error e
  | .ok (k, r) =>
    if c.records.contains k then .error (.duplicateKey c.name k.display) else .ok (k, c.store k r)

/-- Puts a record under its key, in place of the one that is there, and gives the key. -/
def put (c : Container) (r : Record) : Except Error (Key × Container) :=
  match c.keyed r with
  | .error e => .error e
  | .ok (k, r) => .ok (k, c.store k r)

/-- The record under a key. -/
def find? (c : Container) (k : Key) : Option Record := c.records.find? k

/-- Deletes the record under a key, and tells whether there was one. -/
def delete (c : Container) (k : Key) : Bool × Container :=
  match c.records.find? k with
  | none => (false, c)
  | some r => (true, { c.note k (some r) with records := c.records.erase k })

/-- All records in the order of their keys. -/
def scan (c : Container) : List Record := c.records.values

/-- The number of records. -/
def size (c : Container) : Nat := c.records.size

/-! ## Journals -/

/-- The container with a journal, opened now if none is. -/
def begin (c : Container) : Container :=
  match c.journal with
  | some _ => c
  | none => { c with journal := some { nextKey := c.nextKey } }

/-- The container with its journal closed and its changes kept. -/
def commit (c : Container) : Container := { c with journal := none }

/-- The records with one change undone. -/
def undo (records : OrderedMap Key Record) (change : Key × Option Record) : OrderedMap Key Record :=
  match change.2 with
  | some r => records.insert change.1 r
  | none => records.erase change.1

/-- The container with its journal closed and its changes undone. -/
def rollback (c : Container) : Container :=
  match c.journal with
  | none => c
  | some j => { c with nextKey := j.nextKey, records := j.prior.foldl undo c.records, journal := none }

/-- What the keys in the journal hold, if one is open. -/
def changes? (c : Container) : Option Changes :=
  c.journal.map fun j =>
    let touched := j.touched
    { name := c.name
      nextKey := c.nextKey
      put := touched.filterMap c.records.findEntry?
      deleted := touched.filter fun k => !c.records.contains k }

/-- The container with changes made elsewhere, whose keys are taken as they are. -/
def apply (c : Container) (changes : Changes) : Container :=
  { c with
    nextKey := changes.nextKey
    records := changes.deleted.foldl .erase (changes.put.foldl (fun m e => m.insert e.1 e.2) c.records) }

/-- The container with one more record that was read from a store, under its key; the next key stays. -/
def restore (c : Container) (r : Record) : Except Error Container :=
  match c.keyed r with
  | .error e => .error e
  | .ok (k, r) => .ok { c with records := c.records.insert k r }

/-- Whether two containers hold the same, the columns of their records in any order. -/
def agrees (c d : Container) : Bool :=
  c.name == d.name && c.keyPath == d.keyPath && c.autoIncrement == d.autoIncrement && c.nextKey == d.nextKey &&
    c.journal == d.journal && c.records.keys == d.records.keys &&
    (c.scan.zip d.scan).all fun p => p.1.sameCells p.2

end Container

end TableStore
