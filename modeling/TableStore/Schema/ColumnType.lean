import TableStore.Error
import TableStore.Number.Decimal
import TableStore.Text.Blank

/-!
# Column types

- a column type is declared and shown but never enforced; types that are not known by name are kept in upper case
  as they are written (`ColumnType.other`);
- `ofParts` builds a type from a name and arguments, `read` from its text, `text` writes it; known types keep the
  arguments that they have a place for and drop the others.
-/

namespace TableStore

/-- The declared type of a column. -/
inductive ColumnType where
  | text
  | integer
  | real
  | date
  | boolean
  /-- Text of bounded length. -/
  | varchar (length : Option UInt32)
  /-- Text of fixed length. -/
  | char (length : Option UInt32)
  /-- Numbers with a precision and a scale. -/
  | numeric (precision scale : Option UInt32)
  /-- Any other type, in upper case. -/
  | other (name : String)
  deriving DecidableEq, Repr

namespace ColumnType

open Text

/-- Arguments as they are shown: with a comma and a space between them. -/
def showArgs : List UInt32 → List Char
  | [] => []
  | [n] => Nat.toDigits 10 n.toNat
  | n :: ns => Nat.toDigits 10 n.toNat ++ ',' :: ' ' :: showArgs ns

/-- A name with arguments after it in parentheses, if there are any. -/
def withArgs (name : String) (args : List UInt32) : String :=
  if args.isEmpty then name else name ++ String.ofList ('(' :: (showArgs args ++ [')']))

/-- The type of a name, in any case, and arguments. -/
def ofParts (name : List Char) (args : List UInt32) : ColumnType :=
  let upper := String.ofList (upper name)
  match upper with
  | "TEXT" => .text
  | "INTEGER" => .integer
  | "REAL" => .real
  | "DATE" => .date
  | "BOOLEAN" => .boolean
  | "VARCHAR" => .varchar args[0]?
  | "CHAR" => .char args[0]?
  | "NUMERIC" => .numeric args[0]? args[1]?
  | _ => .other (withArgs upper args)

/-- A type as it is shown. -/
def display : ColumnType → String
  | .text => "TEXT"
  | .integer => "INTEGER"
  | .real => "REAL"
  | .date => "DATE"
  | .boolean => "BOOLEAN"
  | .varchar n => withArgs "VARCHAR" n.toList
  | .char n => withArgs "CHAR" n.toList
  | .numeric none _ => "NUMERIC"
  | .numeric (some p) s => withArgs "NUMERIC" (p :: s.toList)
  | .other name => name

/-- A whole number below 2^32: digits, perhaps after a plus sign. -/
def readCount? (cs : List Char) : Option UInt32 :=
  let ds := match cs with
    | '+' :: ds => ds
    | ds => ds
  if ds.isEmpty || !ds.all isDigit then none
  else
    let n := Decimal.natOfDigits ds
    if n < UInt32.size then some (UInt32.ofNat n) else none

/-- The pieces between the commas. -/
def splitCommas : List Char → List (List Char)
  | [] => [[]]
  | c :: cs =>
    match splitCommas cs with
    | [] => [[c]]
    | p :: ps => if c = ',' then [] :: p :: ps else (c :: p) :: ps

/-- The numbers of a list of pieces, if all of them are numbers. -/
def readCounts? : List (List Char) → Option (List UInt32)
  | [] => some []
  | p :: ps => do
    let n ← readCount? (trim p)
    let ns ← readCounts? ps
    return n :: ns

/-- The type that a text describes: a name, or a name with arguments in parentheses. Arguments that are not numbers
make it a type of its own, kept with them. -/
def read (s : List Char) : Except Error ColumnType :=
  let s := trim s
  match s.dropWhile (· != '(') with
  | [] => .ok (ofParts s [])
  | _ :: inner =>
    match (trimEnd inner).getLast? with
    | some ')' =>
      match readCounts? (splitCommas (trimEnd inner).dropLast) with
      | some args => .ok (ofParts (trim (s.takeWhile (· != '('))) args)
      | none => .ok (.other (String.ofList (upper s)))
    | _ => .error (.unexpectedToken .closing (String.ofList s))

end ColumnType

end TableStore
