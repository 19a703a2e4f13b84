import TableStore.Keyspace.Archive
import TableStore.Program

/-!
# The command line

- `main` reads the options, opens the store, feeds the lines of the standard input to the shell as they come, and
  keeps the store in the directory of the options after every line that has changed it.
-/

namespace TableStore.CommandLine

open Program

/-- Prints on the two streams. -/
def put (p : Printed) : IO Unit := do
  unless p.out.isEmpty do
    (← IO.getStdout).putStr p.out
    (← IO.getStdout).flush
  unless p.err.isEmpty do
    (← IO.getStderr).putStr p.err
    (← IO.getStderr).flush

/-- The file in the directory of a store. -/
def storeFile (directory : String) : String := directory ++ "/store"

/-- The store in a directory; a directory without one gives an empty store. -/
def load (directory : String) : IO (Except Error Medium) := do
  try
    let text ← IO.FS.readFile (storeFile directory)
    match Keyspace.ofArchive? text with
    | some k => pure (.ok (.keyspace k))
    | none => pure (.error .unreadable)
  catch
    | .noFileOrDirectory .. => pure (.ok (.keyspace {}))
    | e => pure (.error (.storage (toString e)))

/-- Keeps a store in a directory; one in memory is not kept. -/
def save (directory : String) : Medium → IO Unit
  | .memory _ => pure ()
  | .keyspace k => do
    IO.FS.createDirAll directory
    IO.FS.writeFile (storeFile directory) k.archive

/-- Feeds lines to a shell until the input ends or the shell takes no more, and gives the shell at the end. -/
partial def loop (directory : String) (shell : Shell) : IO Shell := do
  let line ← (← IO.getStdin).getLine
  match Text.lines line.toList with
  | [] => pure shell
  | cs :: _ =>
    let (next, printed) := shell.feed (String.ofList cs)
    put printed
    if next.session.store.medium ≠ shell.session.store.medium then
      save directory next.session.store.medium
    if next.phase = .reading then loop directory next else pure next

/-- Runs a shell on a medium at a location. -/
def serve (o : Shell.Options) (location : String) (medium : Medium) : IO UInt32 := do
  match Shell.start location o.settings medium with
  | (.error e, printed) =>
    put (printed ++ notOpened e)
    pure 1
  | (.ok shell, printed) =>
    put printed
    save o.path shell.session.store.medium
    let shell ← loop o.path shell
    put shell.farewell
    pure shell.code.toUInt32

/-- Opens the store of the options and runs a shell on it. -/
def start (o : Shell.Options) : IO UInt32 := do
  if o.memory then serve o "memory" (.memory none)
  else
    match ← load o.path with
    | .ok medium => serve o o.path medium
    | .error e =>
      put (notOpened e)
      pure 1

end TableStore.CommandLine

/-- The command line. -/
def main (args : List String) : IO UInt32 :=
  match TableStore.Shell.Options.read {} args with
  | .error e => do
    TableStore.CommandLine.put (TableStore.Program.fatal e.message)
    pure 1
  | .ok .usage => do
    TableStore.CommandLine.put { out := TableStore.Shell.usage }
    pure 0
  | .ok (.start o) => TableStore.CommandLine.start o
