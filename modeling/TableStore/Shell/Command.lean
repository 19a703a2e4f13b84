import TableStore.Text.Blank

/-!
# Commands of the shell

- a line that starts with a dot is a command: its first word names it, and the following ones are its arguments
  (`Command.read?`); further words are passed over.
-/

namespace TableStore.Shell

/-- A command. -/
inductive Command where
  | help
  | quit
  | tables
  /-- The definition of a table, or of every table. -/
  | schema (table : Option String)
  | rename (source target : String)
  | dump (table : String)
  /-- A command that lacks an argument, with its usage. -/
  | incomplete (usage : String)
  | unknown (word : String)
  deriving DecidableEq

namespace Command

/-- The command of words. -/
def ofWords? : List String → Option Command
  | [] => none
  | ".help" :: _ => some .help
  | ".quit" :: _ => some .quit
  | ".exit" :: _ => some .quit
  | ".tables" :: _ => some .tables
  | ".schema" :: args => some (.schema args.head?)
  | ".rename" :: source :: target :: _ => some (.rename source target)
  | ".rename" :: _ => some (.incomplete ".rename <old> <new>")
  | ".dump" :: table :: _ => some (.dump table)
  | ".dump" :: _ => some (.incomplete ".dump <table>")
  | word :: _ => some (.unknown word)

/-- The command of a line. -/
def read? (line : List Char) : Option Command := ofWords? ((Text.words line).map String.ofList)

end Command

/-- The explanation of the commands. -/
def help : String :=
  "\nCommands:\n" ++
  "  .help                 Show this help message\n" ++
  "  .quit                 Exit StudioDB\n" ++
  "  .tables               List all tables\n" ++
  "  .schema [table]       Show table definitions\n" ++
  "  .rename <old> <new>   Rename a table\n" ++
  "  .dump <table>         Print INSERT statements for a table's rows\n" ++
  "\n" ++
  "SQL Commands:\n" ++
  "  CREATE TABLE ...             Create a new table\n" ++
  "  CREATE TABLE ... AS SELECT   Create a table from literal rows\n" ++
  "  DROP TABLE ...               Drop a table\n" ++
  "  INSERT INTO ...              Insert rows\n" ++
  "  SELECT ...                   Query data\n" ++
  "  DELETE FROM ... WHERE ...    Delete rows\n" ++
  "\n" ++
  "Examples:\n" ++
  "  CREATE TABLE users (id INTEGER, name VARCHAR(100));\n" ++
  "  INSERT INTO users (id, name) VALUES (1, 'Alice'), (2, 'Bob');\n" ++
  "  SELECT * FROM users WHERE id = 1;\n" ++
  "  CREATE TABLE tags AS SELECT 1 AS id, 'red' AS tag UNION ALL SELECT 2, 'blue';\n\n"

end TableStore.Shell
