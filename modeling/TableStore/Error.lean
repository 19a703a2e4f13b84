import TableStore.Statement.Token

/-!
# Errors

- an `Error` is the cause of a failure; `kind` sorts causes into four, and `message` words them;
- `fault` stands for a slip of the reader itself: a slice that does not fall on characters, a step past the end, a
  round that takes nothing.
-/

namespace TableStore

/-- The four kinds of errors. -/
inductive ErrorKind where
  /-- The text of a statement is not of the grammar. -/
  | syntactic
  /-- A table is missing, is there already, or has another shape. -/
  | schema
  /-- A rule about keys or statements is broken. -/
  | constraint
  /-- The store has failed. -/
  | storage
  deriving DecidableEq, Repr

/-- What the grammar asks for. -/
inductive Expectation where
  | token (t : Token)
  | statement
  | endOfStatement
  | columnType
  | expression
  | value
  | name
  | count
  | closing
  deriving DecidableEq, Repr

/-- What the grammar asks for, in words. -/
def Expectation.text : Expectation → String
  | .token t => t.text
  | .statement => "a statement"
  | .endOfStatement => "end of statement"
  | .columnType => "column type"
  | .expression => "expression"
  | .value => "value"
  | .name => "identifier"
  | .count => "a non-negative integer"
  | .closing => "')'"

/-- Slips of the reader of statements. -/
inductive Fault where
  /-- A slice of the text that does not fall on characters. -/
  | slice (start stop : Nat)
  /-- A step past the last token. -/
  | pastEnd
  /-- A round of a loop that takes no token. -/
  | stalled
  deriving DecidableEq, Repr

/-- Causes of failure. -/
inductive Error where
  /-- No token starts with this character, at this byte. -/
  | unexpectedCharacter (c : Char) (position : Nat)
  /-- The quote at this byte is not closed. -/
  | unterminatedText (position : Nat)
  /-- A number with something else in it or after it. -/
  | invalidNumber (text : String)
  /-- The grammar asks for something else than the text found. -/
  | unexpectedToken (expected : Expectation) (found : String)
  /-- The grammar asks for more. -/
  | unexpectedEnd (expected : Expectation)
  /-- No statement starts like this. -/
  | unsupportedCommand (text : String)
  /-- The reader slipped. -/
  | fault (f : Fault)
  /-- There is no table of this name. -/
  | tableNotFound (table : String)
  /-- There is a table of this name. -/
  | tableAlreadyExists (table : String)
  /-- An item of the first row of a table made of literal rows has no name. -/
  | missingAlias (text : String)
  /-- A row has another number of values than there are columns. -/
  | columnCountMismatch (expected found : Nat)
  /-- Rows can be deleted only by a condition. -/
  | deleteWithoutWhere (table : String)
  /-- A table needs a first column, for its key. -/
  | emptyColumnList (table : String)
  /-- The key is taken. -/
  | duplicateKey (table key : String)
  /-- The record has no value for the key column. -/
  | missingKey (table keyPath : String)
  /-- The value for the key column is not a key. -/
  | invalidKey (table value : String)
  /-- The store reports a failure. -/
  | storage (message : String)
  /-- There is no container of this name. -/
  | containerNotFound (name : String)
  /-- A stored text cannot be read. -/
  | unreadable
  deriving DecidableEq, Repr

namespace Error

/-- The kind of an error. -/
def kind : Error → ErrorKind
  | .unexpectedCharacter .. | .unterminatedText _ | .invalidNumber _ | .unexpectedToken .. | .unexpectedEnd _
  | .unsupportedCommand _ | .fault _ => .syntactic
  | .tableNotFound _ | .tableAlreadyExists _ | .missingAlias _ | .columnCountMismatch .. => .schema
  | .deleteWithoutWhere _ | .emptyColumnList _ | .duplicateKey .. | .missingKey .. | .invalidKey .. => .constraint
  | .storage _ | .containerNotFound _ | .unreadable => .storage

/-- A name between double quotes, as messages show it. -/
def shown (name : String) : String := "\"" ++ name ++ "\""

/-- The wording of an error. -/
def message : Error → String
  | .unexpectedCharacter c p =>
    "Syntax error: unexpected character '" ++ String.ofList [c] ++ "' at position " ++ toString p
  | .unterminatedText p => "Syntax error: unterminated quoted text starting at position " ++ toString p
  | .invalidNumber s => "Syntax error: invalid number '" ++ s ++ "'"
  | .unexpectedToken e s => "Syntax error: unexpected token '" ++ s ++ "', expected " ++ e.text
  | .unexpectedEnd e => "Syntax error: unexpected end of input, expected " ++ e.text
  | .unsupportedCommand s => "Syntax error: unsupported SQL command " ++ shown s
  | .fault (.slice a b) => "Syntax error: no text from byte " ++ toString a ++ " to byte " ++ toString b
  | .fault .pastEnd => "Syntax error: a step past the end"
  | .fault .stalled => "Syntax error: a round without a token"
  | .tableNotFound t => "Schema error: table " ++ shown t ++ " not found"
  | .tableAlreadyExists t => "Schema error: table " ++ shown t ++ " already exists"
  | .missingAlias s =>
    "Schema error: the first SELECT in a CREATE TABLE AS statement must use aliases (AS) for all columns, " ++
      "invalid definition " ++ shown s
  | .columnCountMismatch e f =>
    "Schema error: column count mismatch, expected " ++ toString e ++ " columns but found " ++ toString f
  | .deleteWithoutWhere t =>
    "Constraint error: DELETE without a WHERE clause is not supported (table " ++ shown t ++ ")"
  | .emptyColumnList t =>
    "Constraint error: table " ++ shown t ++ " must have at least one column to be used as a primary key"
  | .duplicateKey t k => "Constraint error: key " ++ k ++ " already exists in table " ++ shown t
  | .missingKey t k =>
    "Constraint error: record for table " ++ shown t ++ " has no value for key column " ++ shown k
  | .invalidKey t v => "Constraint error: " ++ v ++ " is not a valid key for table " ++ shown t
  | .storage m => "Storage error: " ++ m
  | .containerNotFound n => "Storage error: container " ++ shown n ++ " does not exist"
  | .unreadable => "Storage error: a stored text cannot be read"

end Error

end TableStore
