import TableStore.Engine
import TableStore.Script

/-!
# Requests

- an `Engine` is a session with its settings; a `Request` is anything that can be asked of it, and `Engine.serve` gives
  the answer and the engine afterwards;
- a failed request leaves the engine working: the errors that it gives are answers too.
-/

namespace TableStore

/-- A session with settings. -/
structure Engine where
  settings : Settings
  session : Session
  deriving DecidableEq

/-- What can be asked of an engine. -/
inductive Request where
  /-- Opens the store, fills a new one as the settings say, and tells whether it is new. -/
  | ready
  /-- Opens the store, and leaves a new one empty. -/
  | openStore
  | isOpen
  | version
  | tables
  /-- Carries out the text of a statement. -/
  | run (text : String)
  /-- Carries out a statement; a new store is left empty. -/
  | execute (s : Statement)
  | rename (source target : String)
  | dump (table : String)
  | migrate (ms : List Migration)
  /-- The live image; a new store is left empty. -/
  | image
  /-- The image that the store keeps. -/
  | stored
  /-- Whether the live image is the one that the store keeps; not so for a store that this request creates. -/
  | synced
  /-- Starts a new engine over the store, with new settings. -/
  | restart (settings : Settings)
  /-- Makes commits fail or succeed from now on. -/
  | failing (on : Bool)
  /-- The commits since the last time, the oldest first. -/
  | commits
  | write (steps : List (Step TransactionOp))
  | upgrade (steps : List (Step UpgradeOp))
  | openWith (steps : List (Step UpgradeOp))

/-- What an engine answers. -/
inductive Answer where
  | done
  | flag (b : Bool)
  | outcome (o : OpenOutcome)
  | version (n : Nat)
  | tables (ts : List Table)
  | resultSet (r : ResultSet)
  | texts (ts : List String)
  | image (i : Option Image)
  | commits (cs : List ChangeSet)

namespace Engine

/-- A step on the session of an engine, and what it answers. -/
def onSession {α : Type} (answer : α → Answer) (step : Settings → Attempt Session α) : Attempt Engine Answer := fun e =>
  let (outcome, session) := step e.settings e.session
  (outcome.map answer, { e with session })

/-- Whether the live image is the one that the store keeps. The store is asked first: where opening the session creates
the store, there was nothing yet to agree with. -/
def synced : Attempt Session Bool := do
  let stored ← Attempt.read fun s => s.store.load
  let live ← Session.image
  pure (stored.any live.agrees)

/-- The log of the store, which is emptied. -/
def takeLog : Attempt Session (List ChangeSet) := fun s =>
  (.ok s.store.log.reverse, { s with store := { s.store with log := [] } })

/-- Answers a request. -/
def serve : Request → Attempt Engine Answer
  | .ready => onSession .flag ready
  | .openStore => onSession .outcome fun _ => Session.openWith (pure ())
  | .isOpen => onSession .flag fun _ => Attempt.read fun s => .ok s.isOpen
  | .version => onSession .version version
  | .tables => onSession .tables tables
  | .run text => onSession .resultSet fun settings => run settings text
  | .execute s => onSession .resultSet fun settings => execute settings.matching s
  | .rename source target => onSession (fun _ => .done) fun settings => rename settings source target
  | .dump table => onSession .texts fun settings => dump settings table
  | .migrate ms => onSession .version fun _ => migrate ms
  | .image => onSession (fun i => .image (some i)) fun _ => Session.image
  | .stored => onSession .image fun _ => Attempt.read fun s => s.store.load
  | .synced => onSession .flag fun _ => synced
  | .restart settings => fun e => (.ok .done, { settings, session := e.session.restart })
  | .failing on => onSession (fun _ => .done) fun _ => Attempt.change fun s =>
      { s with store := { s.store with failing := on } }
  | .commits => onSession .commits fun _ => takeLog
  | .write steps => onSession (fun _ => .done) fun _ => Script.write steps
  | .upgrade steps => onSession (fun _ => .done) fun _ => Script.upgrade steps
  | .openWith steps => onSession .outcome fun _ => Script.openWith steps

/-- The engine after some requests. -/
def after (rs : List Request) (e : Engine) : Engine := rs.foldl (fun e r => (serve r e).2) e

end Engine

end TableStore
