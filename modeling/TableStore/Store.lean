import TableStore.Keyspace

/-!
# Stores

- a store keeps an image in a medium: in memory, or in a keyspace of texts;
- `load` gives the image back, none if the store was never written; `commit` makes the changes of a change set;
- a store can be told which of its commits fail, and it keeps a log of the others.
-/

namespace TableStore

/-- What an image is kept in. -/
inductive Medium where
  /-- The image itself, once there is one. -/
  | memory (image : Option Image)
  /-- The texts of the image. -/
  | keyspace (k : Keyspace)
  deriving DecidableEq

namespace Medium

/-- The image that is kept, if there is one. -/
def load : Medium → Except Error (Option Image)
  | .memory image => .ok image
  | .keyspace k => k.load

/-- A commit to a medium; in memory the first one starts from the empty image, which stays even if the change set
does not fit it. -/
def commit (changes : ChangeSet) : Medium → Except Error Unit × Medium
  | .memory image =>
    let i := image.getD {}
    match i.apply changes with
    | .ok i => (.ok (), .memory (some i))
    | .error e => (.error e, .memory (some i))
  | .keyspace k =>
    match k.commit changes with
    | .ok k => (.ok (), .keyspace k)
    | .error e => (.error e, .keyspace k)

end Medium

/-- A medium whose commits can be made to fail, with a log of those that do not. -/
structure Store where
  medium : Medium
  /-- Whether each of the next commits fails before it reaches the medium. -/
  fates : List Bool := []
  /-- Whether the commits after those fail. -/
  failing : Bool := false
  /-- The commits that succeeded, the newest first. -/
  log : List ChangeSet := []
  deriving DecidableEq

namespace Store

/-- The image that is kept, if there is one. -/
def load (s : Store) : Except Error (Option Image) := s.medium.load

/-- A commit. -/
def commit (changes : ChangeSet) (s : Store) : Except Error Unit × Store :=
  let after := { s with fates := s.fates.tail }
  if s.fates.headD s.failing then (.error (.storage "disk full"), after)
  else match s.medium.commit changes with
    | (.ok (), medium) => (.ok (), { after with medium, log := changes :: s.log })
    | (.error e, medium) => (.error e, { after with medium })

end Store

end TableStore
