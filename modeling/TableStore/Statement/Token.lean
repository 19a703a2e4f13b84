import TableStore.Text.Upper

/-!
# Tokens of statements

- only the words of the grammar are keywords; a word is one when its upper case is (`Keyword.ofWord?`), so `select`
  and `ſelect` are, and columns may be named `key`, `date` or `text`;
- text in double quotes is a name where a name is due and a string where a value is, so it is a token of its own;
- numbers are kept as they are written.
-/

namespace TableStore

/-- The words of the grammar. -/
inductive Keyword where
  | create
  | drop
  | table
  | select
  | from
  | where
  | insert
  | into
  | values
  | delete
  | as
  | union
  | all
  | null
  deriving DecidableEq, Repr

namespace Keyword

/-- Every keyword. -/
def every : List Keyword :=
  [.create, .drop, .table, .select, .from, .where, .insert, .into, .values, .delete, .as, .union, .all, .null]

/-- A keyword in upper case. -/
def text : Keyword → String
  | .create => "CREATE"
  | .drop => "DROP"
  | .table => "TABLE"
  | .select => "SELECT"
  | .from => "FROM"
  | .where => "WHERE"
  | .insert => "INSERT"
  | .into => "INTO"
  | .values => "VALUES"
  | .delete => "DELETE"
  | .as => "AS"
  | .union => "UNION"
  | .all => "ALL"
  | .null => "NULL"

/-- The keyword that a word is. -/
def ofWord? (word : List Char) : Option Keyword :=
  let upper := Text.upper word
  every.find? fun k => k.text.toList == upper

end Keyword

/-- Operators and delimiters. -/
inductive Mark where
  | eq
  | ne
  | lt
  | gt
  | le
  | ge
  | plus
  | minus
  | asterisk
  | slash
  | openParen
  | closeParen
  | comma
  | semicolon
  | dot
  deriving DecidableEq, Repr

/-- An operator or delimiter as it is shown; `!=` is shown as `<>`. -/
def Mark.text : Mark → String
  | .eq => "="
  | .ne => "<>"
  | .lt => "<"
  | .gt => ">"
  | .le => "<="
  | .ge => ">="
  | .plus => "+"
  | .minus => "-"
  | .asterisk => "*"
  | .slash => "/"
  | .openParen => "("
  | .closeParen => ")"
  | .comma => ","
  | .semicolon => ";"
  | .dot => "."

/-- A token. -/
inductive Token where
  /-- A word of the grammar. -/
  | keyword (k : Keyword)
  /-- A number as it is written. -/
  | number (text : String)
  /-- The text between single quotes. -/
  | string (text : String)
  /-- The text between double quotes. -/
  | quoted (text : String)
  /-- A bare word, or the text between backticks. -/
  | name (text : String)
  /-- An operator or a delimiter. -/
  | mark (m : Mark)
  /-- The end of the text. -/
  | finish
  deriving DecidableEq, Repr

namespace Token

/-- A token as it is shown in messages. -/
def text : Token → String
  | .keyword k => k.text
  | .number s => s
  | .string s => "'" ++ s ++ "'"
  | .quoted s => "\"" ++ s ++ "\""
  | .name s => s
  | .mark m => m.text
  | .finish => "EOF"

/-- Whether a token is a word of the grammar. -/
def isKeyword : Token → Bool
  | .keyword _ => true
  | _ => false

/-- The name that a token stands for where a name is due. -/
def name? : Token → Option String
  | .name s => some s
  | .quoted s => some s
  | _ => none

end Token

end TableStore
