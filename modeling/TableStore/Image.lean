import TableStore.Container
import TableStore.Schema.Catalog

/-!
# Images and change sets

- an `Image` is all that a store keeps: a version, the catalog and the containers by name;
- a `ChangeSet` says what a unit of work has changed; `Image.apply` makes the changes, and refuses them as a whole
  when a container with changed records is missing.
-/

namespace TableStore

/-- The version, the catalog and the containers of a store. -/
structure Image where
  version : Nat := 0
  catalog : Catalog := {}
  containers : OrderedMap String Container := .empty
  deriving DecidableEq

/-- What a unit of work has changed. -/
structure ChangeSet where
  /-- The version after it. -/
  version : Nat
  /-- The whole catalog, if it may have changed. -/
  catalog : Option Catalog := none
  /-- The containers that were deleted. -/
  dropped : List String := []
  /-- The containers that are new, in full. -/
  created : List Container := []
  /-- The changed records of the others. -/
  updated : List Changes := []
  deriving DecidableEq

namespace Image

/-- The container of a name. -/
def find? (i : Image) (name : String) : Option Container := i.containers.find? name

/-- Whether there is a container of a name. -/
def contains (i : Image) (name : String) : Bool := i.containers.contains name

/-- The image with a container under a name. -/
def set (i : Image) (name : String) (c : Container) : Image := { i with containers := i.containers.insert name c }

/-- The image with every container changed. -/
def mapContainers (i : Image) (f : Container → Container) : Image :=
  { i with containers := i.containers.mapValues f }

/-- The names of the containers, in order. -/
def names (i : Image) : List String := i.containers.keys

/-- What the open journals tell of changed records. -/
def journaled (i : Image) : List Changes :=
  (i.containers.values.filterMap Container.changes?).filter fun c => !c.isEmpty

/-- The first container with changed records that is missing. -/
def missing? (i : Image) (updated : List Changes) : Option String :=
  (updated.find? fun u => !i.contains u.name).map Changes.name

/-- The image with the changed records of a container, if there is such a container. -/
def update (i : Image) (changes : Changes) : Image :=
  match i.find? changes.name with
  | some c => i.set changes.name (c.apply changes)
  | none => i

/-- The image with the version, the catalog and the set of containers that a change set brings. -/
def renewed (i : Image) (changes : ChangeSet) : Image :=
  let i := { i with version := changes.version, catalog := changes.catalog.getD i.catalog }
  let i := { i with containers := changes.dropped.foldl .erase i.containers }
  changes.created.foldl (fun i c => i.set c.name c) i

/-- The image with a change set that fits. -/
def applied (i : Image) (changes : ChangeSet) : Image := changes.updated.foldl update (i.renewed changes)

/-- The image with a change set, if it fits. -/
def apply (i : Image) (changes : ChangeSet) : Except Error Image :=
  match i.missing? changes.updated with
  | some name => .error (.containerNotFound name)
  | none => .ok (i.applied changes)

/-- Whether two images hold the same, the columns of their records in any order. -/
def agrees (i j : Image) : Bool :=
  i.version == j.version && i.catalog == j.catalog && i.names == j.names &&
    (i.containers.values.zip j.containers.values).all fun p => p.1.agrees p.2

end Image

/-- Everything that an image holds. -/
def ChangeSet.full (i : Image) : ChangeSet :=
  { version := i.version, catalog := some i.catalog, created := i.containers.values }

end TableStore
