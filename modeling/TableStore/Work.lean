import TableStore.Attempt
import TableStore.Image

/-!
# Units of work

- a transaction changes records of the containers of an image; an upgrade also creates and deletes containers and
  changes the catalog, and moves the image to another version;
- both work on the image in place: containers whose records are to be changed open their journals first, but for the
  ones that an upgrade has created;
- `changeSet` tells what a unit has changed, `finished` keeps it, `aborted` gives the image back as it was.
-/

namespace TableStore

/-- Works on the container of a name after it was made ready; what is done before a failure stays done. -/
def Image.edit {α : Type} (ready : Container → Container) (name : String) (f : Attempt Container α) :
    Attempt Image α := fun i =>
  match i.find? name with
  | none => (.error (.containerNotFound name), i)
  | some c => ((f (ready c)).1, i.set name (f (ready c)).2)

/-! ## Transactions -/

namespace Transaction

/-- Works on the container of a name, with its journal open. -/
def edit {α : Type} : String → Attempt Container α → Attempt Image α := Image.edit Container.begin

/-- What a transaction has changed. -/
def changeSet (i : Image) : ChangeSet := { version := i.version, updated := i.journaled }

/-- The image with the changes of a transaction kept. -/
def finished (i : Image) : Image := i.mapContainers Container.commit

/-- The image with the changes of a transaction undone. -/
def aborted (i : Image) : Image := i.mapContainers Container.rollback

end Transaction

/-! ## Upgrades -/

/-- An upgrade at work. -/
structure Upgrade where
  /-- The image as it is by now. -/
  image : Image
  /-- The version before. -/
  priorVersion : Nat
  /-- The catalog before. -/
  priorCatalog : Catalog
  /-- The containers that were created and are still there. -/
  created : OrderedMap String Unit := .empty
  /-- The containers from before that were deleted. -/
  dropped : OrderedMap String Container := .empty
  deriving DecidableEq

namespace Upgrade

/-- An upgrade of an image to a version. -/
def start (i : Image) (version : Nat) : Upgrade :=
  { image := { i with version }, priorVersion := i.version, priorCatalog := i.catalog }

/-- Makes the container of a name ready: the journal of one that was there before is opened. -/
def ready (u : Upgrade) (name : String) : Container → Container :=
  if u.created.contains name then id else Container.begin

/-- Works on the container of a name. -/
def edit {α : Type} (name : String) (f : Attempt Container α) : Attempt Upgrade α := fun u =>
  let (outcome, image) := Image.edit (u.ready name) name f u.image
  (outcome, { u with image })

/-- Changes the catalog. -/
def editCatalog (f : Catalog → Catalog) : Attempt Upgrade Unit :=
  Attempt.change fun u => { u with image := { u.image with catalog := f u.image.catalog } }

/-- Creates a container under a name that is free. -/
def create (name keyPath : String) (autoIncrement : Bool) : Attempt Upgrade Container := fun u =>
  if u.image.contains name then (.error (.storage ("container " ++ Error.shown name ++ " already exists")), u)
  else
    let c : Container := { name, keyPath, autoIncrement }
    (.ok c, { u with image := u.image.set name c, created := u.created.insert name () })

/-- The upgrade without the container of a name. -/
def without (u : Upgrade) (name : String) : Upgrade :=
  { u with image := { u.image with containers := u.image.containers.erase name } }

/-- Deletes the container of a name, and tells whether there was one. -/
def delete (name : String) : Attempt Upgrade Bool := fun u =>
  match u.image.find? name with
  | none => (.ok false, u)
  | some c =>
    if u.created.contains name then (.ok true, { u.without name with created := u.created.erase name })
    else (.ok true, { u.without name with dropped := u.dropped.insert name c })

/-- What an upgrade has changed. -/
def changeSet (u : Upgrade) : ChangeSet where
  version := u.image.version
  catalog := some u.image.catalog
  dropped := u.dropped.keys
  created := u.created.keys.filterMap u.image.find?
  updated := u.image.journaled

/-- The image with the changes of an upgrade kept. -/
def finished (u : Upgrade) : Image := u.image.mapContainers Container.commit

/-- The image with the changes of an upgrade undone. -/
def aborted (u : Upgrade) : Image :=
  let containers := u.created.keys.foldl .erase u.image.containers
  let containers := u.dropped.entries.foldl (fun m e => m.insert e.1 e.2.rollback) containers
  { version := u.priorVersion
    catalog := u.priorCatalog
    containers := containers.mapValues Container.rollback }

end Upgrade

end TableStore
