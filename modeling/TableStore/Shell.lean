import TableStore.Engine
import TableStore.Shell.Command
import TableStore.Shell.Grid
import TableStore.Shell.Typed

/-!
# The shell

- the shell reads lines: commands, which start with a dot, and statements, which may go on over several lines and end
  with a line that ends in a semicolon, or before a blank line;
- what a line prints goes to one of two streams, the results to the first and the errors to the second (`Printed`);
- of a line as it was typed, the shell takes what its backspaces leave (`typed?`); at a line whose backspaces cut a
  character it breaks off;
- `feed` takes one line, `feedAll` the lines of a whole text; a statement that is not finished at the end is dropped.
-/

namespace TableStore

/-- What is printed on the two streams. -/
structure Printed where
  out : String := ""
  err : String := ""
  deriving DecidableEq

namespace Printed

/-- A line of results. -/
def say (t : String) : Printed := { out := t ++ "\n" }

/-- A line of errors. -/
def complain (t : String) : Printed := { err := t ++ "\n" }

/-- One after the other. -/
protected def append (p q : Printed) : Printed := ⟨p.out ++ q.out, p.err ++ q.err⟩

instance : Append Printed := ⟨Printed.append⟩

end Printed

/-- How far a shell has come. -/
inductive Shell.Phase where
  /-- It takes lines. -/
  | reading
  /-- It was left by a command. -/
  | left
  /-- It broke off at a line that could not be taken. -/
  | broken
  deriving DecidableEq

/-- A shell at work. -/
structure Shell where
  settings : Settings
  session : Session
  /-- The lines of a statement that is not finished, each with its end. -/
  pending : String := ""
  phase : Shell.Phase := .reading
  deriving DecidableEq

namespace Shell

open Printed Text

/-! ## Statements -/

/-- A result set as it is printed: its message, or the grid of its rows. -/
def shownResult (r : ResultSet) : Printed :=
  match r.message? with
  | some message => say message
  | none => { out := grid r.columns r.rows }

/-- The shell after a step on its session, and what is printed of the outcome. -/
def perform {α : Type} (s : Shell) (step : Settings → Attempt Session α) (shown : α → Printed)
    (failed : Error → Printed) : Shell × Printed :=
  match step s.settings s.session with
  | (.ok a, session) => ({ s with session }, shown a)
  | (.error e, session) => ({ s with session }, failed e)

/-- Carries out the text of a statement. -/
def runText (s : Shell) (text : String) : Shell × Printed :=
  let text := trim text.toList
  if text.isEmpty then (s, {})
  else s.perform (fun settings => Engine.run settings (String.ofList text)) shownResult fun e => complain e.message

/-! ## Commands -/

/-- The names of tables, as they are printed. -/
def shownNames (ts : List Table) : Printed :=
  if ts.isEmpty then say "No tables found."
  else ts.foldl (fun p t => p ++ say ("  " ++ t.name)) (say "Tables:")

/-- The statement that creates a table. -/
def definition (t : Table) : String := String.ofList (Statement.create t).write ++ ";"

/-- Table definitions, as they are printed; one that is asked for and missing is an error. -/
def shownTables (wanted : Option String) (ts : List Table) : Printed :=
  let ts := ts.filter fun t => wanted.all (· == t.name)
  match wanted, ts with
  | some name, [] => complain ("Error: table " ++ Error.shown name ++ " not found")
  | _, ts => ts.foldl (fun p t => p ++ say (definition t)) {}

/-- Carries out a command. -/
def runCommand (s : Shell) : Command → Shell × Printed
  | .help => (s, { out := help })
  | .quit => ({ s with phase := .left }, {})
  | .tables => s.perform Engine.tables shownNames fun e => complain ("Error: " ++ e.message)
  | .schema wanted => s.perform Engine.tables (shownTables wanted) fun e => complain ("Error: " ++ e.message)
  | .rename source target =>
    s.perform (fun settings => Engine.rename settings source target)
      (fun _ => say ("Table " ++ Error.shown source ++ " renamed to " ++ Error.shown target ++ "."))
      fun e => complain e.message
  | .dump table =>
    s.perform (fun settings => Engine.dump settings table)
      (fun ts => ts.foldl (fun p t => p ++ say (t ++ ";")) {})
      fun e => complain e.message
  | .incomplete usage => (s, complain ("Usage: " ++ usage))
  | .unknown word =>
    (s, complain ("Unknown command: " ++ word) ++ complain "Type '.help' for available commands.")

/-! ## Lines -/

/-- The shell without a pending statement, which is carried out. -/
def flush (s : Shell) : Shell × Printed := { s with pending := "" }.runText s.pending

/-- Takes a line without backspaces. -/
def take (s : Shell) (line : List Char) : Shell × Printed :=
  let text := trim line
  if s.pending.isEmpty && text.head? == some '.' then
    match Command.read? text with
    | some c => s.runCommand c
    | none => (s, {})
  else if text.isEmpty then
    if s.pending.isEmpty then (s, {}) else s.flush
  else
    let s := { s with pending := s.pending ++ String.ofList line ++ "\n" }
    if text.getLast? == some ';' then s.flush else (s, {})

/-- Takes a line as it was typed. -/
def feed (s : Shell) (line : String) : Shell × Printed :=
  match typed? line.toList with
  | some text => s.take text
  | none => ({ s with phase := .broken }, complain "A backspace cuts a character.")

/-- Takes lines until the shell is left or breaks off. -/
def feedAll (s : Shell) : List String → Shell × Printed
  | [] => (s, {})
  | line :: rest =>
    let (s, printed) := s.feed line
    if s.phase = .reading then
      let (s, more) := s.feedAll rest
      (s, printed ++ more)
    else (s, printed)

/-! ## The whole run -/

/-- What the shell says first. -/
def banner (location : String) : String :=
  "\n StudioDB - an embedded SQL engine\n Connected to " ++ location ++
    "\n Type '.help' for help, '.quit' to exit\n\n"

/-- A shell on a medium at a location, if the store can be opened, and what it says first. -/
def start (location : String) (settings : Settings) (medium : Medium) : Except Error Shell × Printed :=
  match Engine.ready settings { store := { medium } } with
  | (.ok created, session) =>
    (.ok { settings, session },
      { out := banner location ++ (if created then " Created a new store.\n\n" else "") })
  | (.error e, _) => (.error e, {})

/-- What the shell says last, unless it broke off. -/
def farewell (s : Shell) : Printed := if s.phase = .broken then {} else say "Goodbye!"

/-- The exit code of a run that ends with the shell. -/
def code (s : Shell) : Nat := if s.phase = .broken then 101 else 0

end Shell

end TableStore
