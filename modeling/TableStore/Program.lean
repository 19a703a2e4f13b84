import TableStore.Shell
import TableStore.Shell.Options
import TableStore.Text.Lines

/-!
# Whole runs of the shell

- a run of the program takes its options, its input and the stores that are on the disk, each in a directory, and
  gives an exit code, what it has printed, and the stores afterwards (`Program.run`);
- a store that cannot be opened ends the run with the reason.
-/

namespace TableStore.Program

open Shell Text

/-- The end of a run. -/
structure Ending where
  code : Nat
  printed : Printed
  deriving DecidableEq

/-- The stores on a disk by their directories. -/
abbrev Disk := OrderedMap String Keyspace

/-! ## Directories -/

/-- The steps of a path without those that lead nowhere; a step up takes one off if there is one. -/
def steps (path : List String) : List String :=
  (path.foldl (fun taken step =>
    if step = "" || step = "." then taken
    else if step = ".." then
      match taken with
      | [] => [step]
      | last :: before => if last = ".." then step :: taken else before
    else step :: taken) []).reverse

/-- The one way to write a path. -/
def place (path : String) : String :=
  (if path.startsWith "/" then "/" else "") ++ String.intercalate "/" (steps (path.splitOn "/"))

/-! ## Failures -/

/-- What is printed of an error that ends a run. -/
def fatal (message : String) : Printed := Printed.complain ("Error: " ++ message)

/-- A message under another one, each of its lines indented. -/
def indented (message : String) : String := "    " ++ message.replace "\n" "\n    "

/-- What is printed when a store cannot be opened. -/
def notOpened (e : Error) : Printed :=
  fatal ("failed to open the store\n\nCaused by:\n" ++ indented e.message)

/-! ## Runs -/

/-- A run on a medium, with the medium afterwards. -/
def runOn (location : String) (settings : Settings) (medium : Medium) (input : String) : Ending × Medium :=
  match Shell.start location settings medium with
  | (.error e, printed) => (⟨1, printed ++ notOpened e⟩, medium)
  | (.ok shell, printed) =>
    let (shell, more) := shell.feedAll ((lines input.toList).map String.ofList)
    (⟨shell.code, printed ++ more ++ shell.farewell⟩, shell.session.store.medium)

/-- A run. -/
def run (args : List String) (input : String) (disk : Disk) : Ending × Disk :=
  match Options.read {} args with
  | .error e => (⟨1, fatal e.message⟩, disk)
  | .ok .usage => (⟨0, { out := usage }⟩, disk)
  | .ok (.start o) =>
    if o.memory then ((runOn "memory" o.settings (.memory none) input).1, disk)
    else
      let (ending, medium) := runOn o.path o.settings (.keyspace ((disk.find? (place o.path)).getD {})) input
      match medium with
      | .keyspace k => (ending, disk.insert (place o.path) k)
      | .memory _ => (ending, disk)

end TableStore.Program
