import TableStore.Statement
import TableStore.Text.Word

/-!
# Statements as text

- a name is written bare when it is a word and no keyword, and between double quotes otherwise (`writeName`);
- every statement has one text (`Statement.write`), with values as literals and single spaces.
-/

namespace TableStore

/-- Whether a name can be written bare. -/
def isBareName (cs : List Char) : Bool :=
  cs.head?.any Text.startsWord && cs.all Text.inWord && (Keyword.ofWord? cs).isNone

/-- A name. -/
def writeName (name : String) : List Char :=
  if isBareName name.toList then name.toList else Text.enclose '"' name.toList

/-- Texts with a comma and a space between them. -/
def listed : List (List Char) → List Char
  | [] => []
  | [t] => t
  | t :: ts => t ++ ',' :: ' ' :: listed ts

/-- Texts in parentheses, with commas between them. -/
def inParens (ts : List (List Char)) : List Char := '(' :: (listed ts ++ [')'])

namespace Condition

/-- A condition with its keyword. -/
def write (c : Condition) : List Char :=
  "WHERE ".toList ++ writeName c.column ++ " = ".toList ++ Literal.write c.value

end Condition

namespace Statement

/-- A column with its type. -/
def writeColumn (c : Column) : List Char := writeName c.name ++ ' ' :: c.type.display.toList

/-- An item of a literal row, with its name if it has one. -/
def writeItem (i : Item) : List Char :=
  match i.name with
  | some name => Literal.write i.value ++ " AS ".toList ++ writeName name
  | none => Literal.write i.value

/-- Literal rows. -/
def writeRows : List (List Item) → List Char
  | [] => []
  | [r] => "SELECT ".toList ++ listed (r.map writeItem)
  | r :: rs => "SELECT ".toList ++ listed (r.map writeItem) ++ " UNION ALL ".toList ++ writeRows rs

/-- A condition after a statement, if there is one. -/
def writeCondition : Option Condition → List Char
  | none => []
  | some c => ' ' :: c.write

/-- The columns of a selection. -/
def writeProjection : Projection → List Char
  | .all => ['*']
  | .columns names => listed (names.map writeName)

/-- A statement. -/
def write : Statement → List Char
  | .create t => "CREATE TABLE ".toList ++ writeName t.name ++ ' ' :: inParens (t.columns.map writeColumn)
  | .createAs table rows => "CREATE TABLE ".toList ++ writeName table ++ " AS ".toList ++ writeRows rows
  | .drop table => "DROP TABLE ".toList ++ writeName table
  | .select projection table condition =>
    "SELECT ".toList ++ writeProjection projection ++ " FROM ".toList ++ writeName table ++ writeCondition condition
  | .insert table columns rows =>
    "INSERT INTO ".toList ++ writeName table ++
      (match columns with
        | some names => ' ' :: inParens (names.map writeName)
        | none => []) ++
      " VALUES ".toList ++ listed (rows.map fun r => inParens (r.map Literal.write))
  | .delete table condition => "DELETE FROM ".toList ++ writeName table ++ writeCondition condition

end Statement

end TableStore
