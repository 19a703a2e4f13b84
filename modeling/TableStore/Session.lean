import TableStore.Store
import TableStore.Work

/-!
# Sessions

- a session is a store and, while it is open, the live image of it; the first use opens it, and a store that was
  never written is created by an upgrade to version 1;
- `write` runs a transaction and `upgrade` an upgrade: the changes are committed to the store, and if the unit or the
  commit fails the live image is as it was before;
- a transaction that has changed no record commits nothing.
-/

namespace TableStore

/-- What opening a session has found. -/
inductive OpenOutcome where
  /-- There was no store, and it was created. -/
  | created
  /-- There was a store. -/
  | opened
  /-- The session was open. -/
  | alreadyOpen
  deriving DecidableEq, Repr

/-- A store and the live image of it. -/
structure Session where
  store : Store
  /-- The image, while the session is open. -/
  live : Option Image := none
  deriving DecidableEq

namespace Session

variable {α : Type}

/-! ## Ends of units -/

/-- Ends an upgrade: commits what it has changed if it has succeeded, and undoes it otherwise. -/
def settleUpgrade (outcome : Except Error α) (u : Upgrade) (store : Store) : Except Error α × Image × Store :=
  match outcome with
  | .error e => (.error e, u.aborted, store)
  | .ok a =>
    match store.commit u.changeSet with
    | (.ok (), store) => (.ok a, u.finished, store)
    | (.error e, store) => (.error e, u.aborted, store)

/-- Ends a transaction: commits what it has changed, if that is anything, or undoes it. -/
def settleTransaction (outcome : Except Error α) (i : Image) (store : Store) : Except Error α × Image × Store :=
  match outcome with
  | .error e => (.error e, Transaction.aborted i, store)
  | .ok a =>
    let changes := Transaction.changeSet i
    if changes.updated.isEmpty then (.ok a, Transaction.finished i, store)
    else match store.commit changes with
      | (.ok (), store) => (.ok a, Transaction.finished i, store)
      | (.error e, store) => (.error e, Transaction.aborted i, store)

/-! ## Opening -/

/-- Whether the session is open. -/
def isOpen (s : Session) : Bool := s.live.isSome

/-- Opens the session with the outcome of the upgrade that creates a store; the store is asked first. -/
def openWith (init : Attempt Upgrade Unit) : Attempt Session OpenOutcome := fun s =>
  match s.live with
  | some _ => (.ok .alreadyOpen, s)
  | none =>
    match s.store.load with
    | .error e => (.error e, s)
    | .ok (some image) => (.ok .opened, { s with live := some image })
    | .ok none =>
      let (outcome, u) := init (Upgrade.start {} 1)
      match settleUpgrade outcome u s.store with
      | (.ok (), image, store) => (.ok .created, { store, live := some image })
      | (.error e, _, store) => (.error e, { store, live := none })

/-- The live image; a session that is not open is opened, and a new store is left empty. -/
def image : Attempt Session Image := fun s =>
  match openWith (pure ()) s with
  | (.error e, s) => (.error e, s)
  | (.ok _, s) =>
    match s.live with
    | some i => (.ok i, s)
    | none => (.error (.storage "connection is closed"), s)

/-! ## Units -/

/-- Reads the live image. -/
def read (f : Image → Except Error α) : Attempt Session α := fun s =>
  match image s with
  | (.error e, s) => (.error e, s)
  | (.ok i, s) => (f i, s)

/-- Runs a transaction. -/
def write (body : Attempt Image α) : Attempt Session α := fun s =>
  match image s with
  | (.error e, s) => (.error e, s)
  | (.ok i, s) =>
    let (outcome, i) := body i
    let (outcome, i, store) := settleTransaction outcome i s.store
    (outcome, { store, live := some i })

/-- Runs an upgrade to the next version. -/
def upgrade (body : Attempt Upgrade α) : Attempt Session α := fun s =>
  match image s with
  | (.error e, s) => (.error e, s)
  | (.ok i, s) =>
    let (outcome, u) := body (Upgrade.start i (i.version + 1))
    let (outcome, i, store) := settleUpgrade outcome u s.store
    (outcome, { store, live := some i })

/-- A new session over the store. -/
def restart (s : Session) : Session := { store := s.store }

end Session

end TableStore
