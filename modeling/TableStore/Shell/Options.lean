import TableStore.Engine

/-!
# Options

- the options of the shell say which store it works on and how; they are read from the left, and the first one that
  is unknown ends the reading, as does the wish for help (`Options.read`).
-/

namespace TableStore.Shell

/-- What a shell works on. -/
structure Options where
  /-- The directory of the store. -/
  path : String := "studiodb.db"
  /-- Whether the store is kept in memory and lost at the end. -/
  memory : Bool := false
  settings : Settings := {}
  deriving DecidableEq

/-- What options ask for. -/
inductive Invocation where
  | start (o : Options)
  /-- An explanation of the options. -/
  | usage
  deriving DecidableEq

/-- What is wrong with options. -/
inductive OptionError where
  | missingPath
  | unknown (option : String)
  deriving DecidableEq

/-- The wording of an error. -/
def OptionError.message : OptionError → String
  | .missingPath => "--db needs a path"
  | .unknown option => "unknown argument: " ++ option

/-- Reads options on top of others. -/
def Options.read (o : Options) : List String → Except OptionError Invocation
  | [] => .ok (.start o)
  | ["--db"] => .error .missingPath
  | "--db" :: path :: rest => { o with path }.read rest
  | "--memory" :: rest => { o with memory := true }.read rest
  | "--no-seed" :: rest => { o with settings := { o.settings with seeded := false } }.read rest
  | "--filter-where" :: rest => { o with settings := { o.settings with matching := .column } }.read rest
  | "-h" :: _ => .ok .usage
  | "--help" :: _ => .ok .usage
  | option :: _ => .error (.unknown option)

/-- The explanation of the options. -/
def usage : String :=
  "Usage: studiodb [OPTIONS]\n" ++
  "\n" ++
  "Options:\n" ++
  "  --db <path>       Store directory (default: studiodb.db)\n" ++
  "  --memory          Use an in-memory store\n" ++
  "  --no-seed         Do not seed demo tables into a new store\n" ++
  "  --filter-where    WHERE filters by the named column instead of the key\n" ++
  "  -h, --help        Show this message\n"

end TableStore.Shell
