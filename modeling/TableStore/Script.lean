import TableStore.Migration
import TableStore.Session

/-!
# Scripts

- a script is a unit of work as data: a list of operations in a transaction or an upgrade;
- the first operation that fails ends the unit, unless its step is tolerant: then the failure is noted and the unit
  goes on;
- running a script gives the replies of the operations that were finished, beside the outcome of the unit.
-/

namespace TableStore

/-- An operation on a container. A script names a key by a value, so `get` and `delete` reach the keys that values have
(`Key.ofValue?`), and say `notKey` for other values; a container can be asked for any key. -/
inductive RecordOp where
  | add (r : Record)
  | put (r : Record)
  | get (v : Value)
  | delete (v : Value)
  | scan
  | size
  | changes
  | state

/-- An operation of a transaction. -/
inductive TransactionOp where
  /-- An operation on the container of a table. -/
  | on (table : String) (op : RecordOp)
  /-- Fails with a message. -/
  | abort (message : String)
  /-- Whether there is a container. -/
  | has (table : String)
  /-- The container of a table, without opening its journal. -/
  | peek (table : String)
  /-- All table definitions. -/
  | tables

/-- An operation of an upgrade. -/
inductive UpgradeOp where
  /-- An operation that a transaction has too. -/
  | common (op : TransactionOp)
  /-- The version that the upgrade moves to. -/
  | version
  /-- Files a definition in the catalog. -/
  | define (table : Table)
  /-- Takes a definition out of the catalog. -/
  | undefine (table : String)
  /-- Creates a container. -/
  | create (table keyPath : String) (autoIncrement : Bool)
  /-- Deletes a container. -/
  | drop (table : String)
  /-- Makes a migration. -/
  | migrate (m : Migration)

/-- What an operation replies. -/
inductive Reply where
  | done
  | key (k : Key)
  | record (r : Option Record)
  | flag (b : Bool)
  | notKey
  | records (rs : List Record)
  | size (n : Nat) (empty : Bool) (nextKey : Int64)
  | changes (c : Option Changes)
  | container (c : Container)
  | tables (ts : List Table)
  | version (n : Nat)

/-- A step of a script; the failure of a tolerant one does not end the unit. -/
structure Step (ω : Type) where
  op : ω
  tolerant : Bool := false

namespace RecordOp

/-- Runs an operation on a container. -/
def run (op : RecordOp) (c : Container) : Except Error (Reply × Container) :=
  match op with
  | .add r => (c.add r).map fun kc => (.key kc.1, kc.2)
  | .put r => (c.put r).map fun kc => (.key kc.1, kc.2)
  | .get v =>
    match Key.ofValue? v with
    | some k => .ok (.record (c.find? k), c)
    | none => .ok (.notKey, c)
  | .delete v =>
    match Key.ofValue? v with
    | some k => .ok (.flag (c.delete k).1, (c.delete k).2)
    | none => .ok (.notKey, c)
  | .scan => .ok (.records c.scan, c)
  | .size => .ok (.size c.size c.records.isEmpty c.nextKey, c)
  | .changes => .ok (.changes c.changes?, c)
  | .state => .ok (.container c, c)

end RecordOp

/-- The container of a name in an image. -/
def Image.container (name : String) (i : Image) : Except Error Container :=
  match i.find? name with
  | some c => .ok c
  | none => .error (.containerNotFound name)

namespace TransactionOp

/-- Runs an operation, given how containers are worked on and where the image is. -/
def runIn {σ : Type} (edit : String → Attempt Container Reply → Attempt σ Reply)
    (image : σ → Image) : TransactionOp → Attempt σ Reply
  | .on table op => edit table (.whole op.run)
  | .abort message => Attempt.fail (.storage message)
  | .has table => Attempt.read fun s => .ok (.flag ((image s).contains table))
  | .peek table => Attempt.read fun s => ((image s).container table).map .container
  | .tables => Attempt.read fun s => .ok (.tables (image s).catalog.list)

/-- Runs an operation of a transaction. -/
def run : TransactionOp → Attempt Image Reply := runIn Transaction.edit id

end TransactionOp

namespace UpgradeOp

/-- Runs an operation of an upgrade. -/
def run : UpgradeOp → Attempt Upgrade Reply
  | .common op => op.runIn Upgrade.edit Upgrade.image
  | .version => Attempt.read fun u => .ok (.version u.image.version)
  | .define table => do
    Upgrade.editCatalog (·.put table)
    pure .done
  | .undefine table => do
    let there ← Attempt.read fun u => .ok (u.image.catalog.contains table)
    Upgrade.editCatalog (·.erase table)
    pure (.flag there)
  | .create table keyPath autoIncrement => do
    let c ← Upgrade.create table keyPath autoIncrement
    pure (.container c)
  | .drop table => do
    let there ← Upgrade.delete table
    pure (.flag there)
  | .migrate m => do
    m.run
    pure .done

end UpgradeOp

namespace Script

variable {σ ω : Type}

/-- The replies and failures that were noted, the failure that ended the unit if one did, and the state. -/
def run (runOp : ω → Attempt σ Reply) : List (Step ω) → σ → List (Except Error Reply) × Except Error Unit × σ
  | [], s => ([], .ok (), s)
  | step :: steps, s =>
    match runOp step.op s with
    | (.ok r, s) =>
      let (replies, outcome, s) := run runOp steps s
      (.ok r :: replies, outcome, s)
    | (.error e, s) =>
      if step.tolerant then
        let (replies, outcome, s) := run runOp steps s
        (.error e :: replies, outcome, s)
      else ([], .error e, s)

/-- The unit of a script. -/
def body (runOp : ω → Attempt σ Reply) (steps : List (Step ω)) : Attempt σ Unit := fun s => (run runOp steps s).2

/-! ## Scripts on a session -/

/-- Runs a script in a transaction. -/
def write (steps : List (Step TransactionOp)) : Attempt Session Unit := Session.write (body TransactionOp.run steps)

/-- The replies of a script in a transaction. -/
def writeReplies (steps : List (Step TransactionOp)) (s : Session) : List (Except Error Reply) :=
  match (Session.image s).1 with
  | .ok i => (run TransactionOp.run steps i).1
  | .error _ => []

/-- Runs a script in an upgrade. -/
def upgrade (steps : List (Step UpgradeOp)) : Attempt Session Unit := Session.upgrade (body UpgradeOp.run steps)

/-- The replies of a script in an upgrade. -/
def upgradeReplies (steps : List (Step UpgradeOp)) (s : Session) : List (Except Error Reply) :=
  match (Session.image s).1 with
  | .ok i => (run UpgradeOp.run steps (Upgrade.start i (i.version + 1))).1
  | .error _ => []

/-- Opens a session with a script for a new store. -/
def openWith (steps : List (Step UpgradeOp)) : Attempt Session OpenOutcome :=
  Session.openWith (body UpgradeOp.run steps)

/-- The replies of a script for a new store; it is not run if there is a store already. -/
def openReplies (steps : List (Step UpgradeOp)) (s : Session) : List (Except Error Reply) :=
  match s.live, s.store.load with
  | none, .ok none => (run UpgradeOp.run steps (Upgrade.start {} 1)).1
  | _, _ => []

end Script

end TableStore
