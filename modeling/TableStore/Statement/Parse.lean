import TableStore.Statement
import TableStore.Statement.Scan

/-!
# Statements of a text

- `Statement.parse` reads one statement from the tokens of a text, and any number of semicolons after it;
- a reader takes the tokens that are left and gives back those that it leaves; the last one, `finish`, is never
  taken, and a list without it is a fault (`pastEnd`);
- where a value is due, the text from the first to the last token of the item is read as a literal; an item ends at
  a comma or another stop that no parenthesis encloses (`itemLength`);
- column constraints are passed over (`skipConstraints`), and a condition that is not `name = literal` is passed
  over too (`condition?`).
-/

namespace TableStore

namespace Parse

variable {α : Type}

/-! ## Tokens and slices -/

/-- The text from the first of some tokens to the last. -/
def source (text : List Char) : List Lexeme → Except Error (List Char)
  | [] => .ok []
  | l :: ls =>
    let stop := (ls.getLastD l).stop
    match Text.slice? text l.start stop with
    | some s => .ok s
    | none => .error (.fault (.slice l.start stop))

/-- The error that something else is due where a token stands. -/
def unexpected (text : List Char) (expected : Expectation) (l : Lexeme) : Except Error α :=
  if l.token = .finish then .error (.unexpectedEnd expected)
  else do
    let found ← source text [l]
    .error (.unexpectedToken expected (String.ofList found))

/-- Whether a token comes next. -/
def comesNext (t : Token) : List Lexeme → Bool
  | l :: _ => l.token == t
  | [] => false

/-- Takes a token. -/
def expect (text : List Char) (t : Token) : List Lexeme → Except Error (List Lexeme)
  | [] => .error (.fault .pastEnd)
  | l :: ls => if l.token = t then .ok ls else unexpected text (.token t) l

/-- Takes a name. -/
def name (text : List Char) : List Lexeme → Except Error (String × List Lexeme)
  | [] => .error (.fault .pastEnd)
  | l :: ls =>
    match l.token.name? with
    | some n => .ok (n, ls)
    | none => unexpected text .name l

/-- Takes the name of a column, which may also stand between single quotes. -/
def columnName (text : List Char) : List Lexeme → Except Error (String × List Lexeme)
  | ⟨.string n, _, _⟩ :: ls => .ok (n, ls)
  | ls => name text ls

/-- Takes items with commas between them; a bound on their number comes first. -/
def separated (item : List Lexeme → Except Error (α × List Lexeme)) :
    Nat → List Lexeme → Except Error (List α × List Lexeme)
  | 0, _ => .error (.fault .stalled)
  | fuel + 1, ls => do
    let (a, ls) ← item ls
    match ls with
    | ⟨.mark .comma, _, _⟩ :: ls => do
      let (as, ls) ← separated item fuel ls
      .ok (a :: as, ls)
    | ls => .ok ([a], ls)

/-- Takes items with commas between them. -/
def commaList (item : List Lexeme → Except Error (α × List Lexeme)) (ls : List Lexeme) :
    Except Error (List α × List Lexeme) :=
  separated item ls.length ls

/-! ## Items -/

/-- The depth of parentheses after a token. -/
def depthAfter (depth : Nat) : Token → Nat
  | .mark .openParen => depth + 1
  | .mark .closeParen => depth - 1
  | _ => depth

/-- The number of tokens before the first stop that no parenthesis encloses. -/
def itemLength (stops : List Token) : Nat → List Lexeme → Nat
  | _, [] => 0
  | depth, l :: ls =>
    if l.token = .finish then 0
    else if depth = 0 && stops.contains l.token then 0
    else itemLength stops (depthAfter depth l.token) ls + 1

/-- Takes an item; there has to be at least one token. -/
def item (text : List Char) (stops : List Token) (expected : Expectation) (ls : List Lexeme) :
    Except Error (List Lexeme × List Lexeme) :=
  match itemLength stops 0 ls, ls with
  | 0, l :: _ => unexpected text expected l
  | 0, [] => .error (.fault .pastEnd)
  | n, ls => .ok (ls.take n, ls.drop n)

/-- Takes a value. -/
def value (text : List Char) (ls : List Lexeme) : Except Error (Value × List Lexeme) := do
  let (taken, ls) ← item text [.mark .comma, .mark .closeParen, .mark .semicolon] .value ls
  let s ← source text taken
  .ok (Literal.read s, ls)

/-- An item without the name at its end, and the name: at least three tokens, the last two of which are `AS` and a
name. -/
def splitAlias (taken : List Lexeme) : List Lexeme × Option String :=
  match taken.reverse with
  | last :: ⟨.keyword .as, _, _⟩ :: front =>
    if front.isEmpty then (taken, none)
    else match last.token.name? with
      | some n => (front.reverse, some n)
      | none => (taken, none)
  | _ => (taken, none)

/-- Takes an item of a literal row. -/
def rowItem (text : List Char) (ls : List Lexeme) : Except Error (Item × List Lexeme) := do
  let (taken, ls) ← item text [.mark .comma, .keyword .union, .mark .semicolon] .expression ls
  let (shown, name) := splitAlias taken
  let s ← source text shown
  .ok (⟨String.ofList s, Literal.read s, name⟩, ls)

/-! ## Conditions -/

/-- The condition that tokens make up: a bare name, `=`, and a quoted text or a number. -/
def condition? (text : List Char) : List Lexeme → Except Error (Option Condition)
  | [⟨.name column, _, _⟩, ⟨.mark .eq, _, _⟩, l] =>
    match l.token with
    | .string _ | .quoted _ | .number _ => do
      let s ← source text [l]
      .ok (some ⟨column, Literal.read s⟩)
    | _ => .ok none
  | _ => .ok none

/-- Whether a token does not end a condition. -/
def inCondition (l : Lexeme) : Bool := l.token != .finish && l.token != .mark .semicolon

/-- Takes the condition at the end of a statement, if there is one; it goes up to a semicolon or the end. -/
def optionalCondition (text : List Char) : List Lexeme → Except Error (Option Condition × List Lexeme)
  | ⟨.keyword .where, _, _⟩ :: ls => do
    let c ← condition? text (ls.takeWhile inCondition)
    .ok (c, ls.dropWhile inCondition)
  | ls => .ok (none, ls)

/-! ## Tables -/

/-- Takes a whole number below 2^32. -/
def count (text : List Char) : List Lexeme → Except Error (UInt32 × List Lexeme)
  | [] => .error (.fault .pastEnd)
  | l :: ls =>
    match l.token with
    | .number s =>
      match ColumnType.readCount? s.toList with
      | some n => .ok (n, ls)
      | none => unexpected text .count l
    | _ => unexpected text .count l

/-- Takes the name of a type. -/
def typeName (text : List Char) : List Lexeme → Except Error (String × List Lexeme)
  | [] => .error (.fault .pastEnd)
  | l :: ls =>
    match l.token with
    | .name s | .quoted s | .string s => .ok (s, ls)
    | _ => unexpected text .columnType l

/-- Takes the arguments of a type, if there are any. -/
def typeArgs (text : List Char) (ls : List Lexeme) : Except Error (List UInt32 × List Lexeme) :=
  match ls with
  | ⟨.mark .openParen, _, _⟩ :: ls => do
    let (args, ls) ← commaList (count text) ls
    let ls ← expect text (.mark .closeParen) ls
    .ok (args, ls)
  | ls => .ok ([], ls)

/-- What is left after the constraints of a column: they go up to a comma or a closing parenthesis that is not their
own. -/
def skipConstraints : Nat → List Lexeme → List Lexeme
  | _, [] => []
  | depth, l :: ls =>
    match l.token, depth with
    | .finish, _ => l :: ls
    | .mark .comma, 0 => l :: ls
    | .mark .closeParen, 0 => l :: ls
    | .mark .closeParen, depth + 1 => skipConstraints depth ls
    | .mark .openParen, depth => skipConstraints (depth + 1) ls
    | _, depth => skipConstraints depth ls

/-- Takes a column with its type and its constraints. -/
def columnDef (text : List Char) (ls : List Lexeme) : Except Error (Column × List Lexeme) := do
  let (columnName, ls) ← columnName text ls
  let (type, ls) ← typeName text ls
  let (args, ls) ← typeArgs text ls
  .ok (⟨columnName, .ofParts type.toList args⟩, skipConstraints 0 ls)

/-- Takes a literal row. -/
def literalRow (text : List Char) (ls : List Lexeme) : Except Error (List Item × List Lexeme) := do
  let ls ← expect text (.keyword .select) ls
  commaList (rowItem text) ls

/-- Takes literal rows; a bound on their number comes first. -/
def moreLiteralRows (text : List Char) : Nat → List Lexeme → Except Error (List (List Item) × List Lexeme)
  | 0, _ => .error (.fault .stalled)
  | fuel + 1, ls => do
    let (row, ls) ← literalRow text ls
    match ls with
    | ⟨.keyword .union, _, _⟩ :: ls => do
      let ls ← expect text (.keyword .all) ls
      let (rows, ls) ← moreLiteralRows text fuel ls
      .ok (row :: rows, ls)
    | ls => .ok ([row], ls)

/-- Takes what follows `CREATE TABLE`. -/
def createTable (text : List Char) (ls : List Lexeme) : Except Error (Statement × List Lexeme) := do
  let (table, ls) ← name text ls
  match ls with
  | ⟨.keyword .as, _, _⟩ :: ls => do
    let (rows, ls) ← moreLiteralRows text ls.length ls
    .ok (.createAs table rows, ls)
  | ls => do
    let ls ← expect text (.mark .openParen) ls
    let (columns, ls) ← if comesNext (.mark .closeParen) ls then .ok ([], ls) else commaList (columnDef text) ls
    let ls ← expect text (.mark .closeParen) ls
    .ok (.create ⟨table, columns⟩, ls)

/-- What is left after `IF EXISTS`, which may be there or not. -/
def skipIfExists : List Lexeme → List Lexeme
  | ⟨.name a, sa, ea⟩ :: ⟨.name b, sb, eb⟩ :: ls =>
    if Text.sameLetters a.toList "IF".toList && Text.sameLetters b.toList "EXISTS".toList then ls
    else ⟨.name a, sa, ea⟩ :: ⟨.name b, sb, eb⟩ :: ls
  | ls => ls

/-- Takes what follows `DROP TABLE`. -/
def dropTable (text : List Char) (ls : List Lexeme) : Except Error (Statement × List Lexeme) := do
  let (table, ls) ← name text (skipIfExists ls)
  .ok (.drop table, ls)

/-! ## Rows -/

/-- Takes the columns of a selection. -/
def projection (text : List Char) : List Lexeme → Except Error (Projection × List Lexeme)
  | ⟨.mark .asterisk, _, _⟩ :: ls => .ok (.all, ls)
  | ls => do
    let (names, ls) ← commaList (name text) ls
    .ok (.columns names, ls)

/-- Takes what follows `SELECT`. -/
def select (text : List Char) (ls : List Lexeme) : Except Error (Statement × List Lexeme) := do
  let (shown, ls) ← projection text ls
  let ls ← expect text (.keyword .from) ls
  let (table, ls) ← name text ls
  let (condition, ls) ← optionalCondition text ls
  .ok (.select shown table condition, ls)

/-- Takes the columns that rows are inserted into, if they are listed. -/
def targetColumns (text : List Char) : List Lexeme → Except Error (Option (List String) × List Lexeme)
  | ⟨.mark .openParen, _, _⟩ :: ls => do
    let (names, ls) ← commaList (columnName text) ls
    let ls ← expect text (.mark .closeParen) ls
    .ok (some names, ls)
  | ls => .ok (none, ls)

/-- Takes a row of values. -/
def row (text : List Char) (ls : List Lexeme) : Except Error (List Value × List Lexeme) := do
  let ls ← expect text (.mark .openParen) ls
  let (values, ls) ← commaList (value text) ls
  let ls ← expect text (.mark .closeParen) ls
  .ok (values, ls)

/-- Takes what follows `INSERT INTO`. -/
def insert (text : List Char) (ls : List Lexeme) : Except Error (Statement × List Lexeme) := do
  let (table, ls) ← name text ls
  let (columns, ls) ← targetColumns text ls
  let ls ← expect text (.keyword .values) ls
  let (rows, ls) ← commaList (row text) ls
  .ok (.insert table columns rows, ls)

/-- Takes what follows `DELETE FROM`. -/
def delete (text : List Char) (ls : List Lexeme) : Except Error (Statement × List Lexeme) := do
  let (table, ls) ← name text ls
  let (condition, ls) ← optionalCondition text ls
  .ok (.delete table condition, ls)

/-! ## Whole statements -/

/-- Takes a statement. -/
def statement (text : List Char) : List Lexeme → Except Error (Statement × List Lexeme)
  | ⟨.keyword .create, _, _⟩ :: ⟨.keyword .table, _, _⟩ :: ls => createTable text ls
  | ⟨.keyword .drop, _, _⟩ :: ⟨.keyword .table, _, _⟩ :: ls => dropTable text ls
  | ⟨.keyword .select, _, _⟩ :: ls => select text ls
  | ⟨.keyword .insert, _, _⟩ :: ⟨.keyword .into, _, _⟩ :: ls => insert text ls
  | ⟨.keyword .delete, _, _⟩ :: ⟨.keyword .from, _, _⟩ :: ls => delete text ls
  | l :: _ =>
    if l.token = .finish then .error (.unexpectedEnd .statement)
    else do
      let found ← source text [l]
      .error (.unsupportedCommand (String.ofList found))
  | [] => .error (.fault .pastEnd)

/-- Makes sure that only semicolons are left. -/
def endOfStatement (text : List Char) (ls : List Lexeme) : Except Error Unit :=
  match ls.dropWhile fun l => l.token == .mark .semicolon with
  | [] => .error (.fault .pastEnd)
  | l :: _ => if l.token = .finish then .ok () else unexpected text .endOfStatement l

end Parse

/-- The statement that a text is. -/
def Statement.parse (s : String) : Except Error Statement := do
  let text := s.toList
  let lexemes ← scan text
  let (statement, rest) ← Parse.statement text lexemes
  Parse.endOfStatement text rest
  .ok statement

/-- The condition that a text without its keyword is. -/
def Condition.parse? (s : String) : Option Condition :=
  let text := s.toList
  match scan text with
  | .error _ => none
  | .ok lexemes =>
    match Parse.condition? text lexemes.dropLast with
    | .ok c => c
    | .error _ => none

example : (Statement.parse "select a from t where b = 'c';").toOption =
    some (.select (.columns ["a"]) "t" (some ⟨"b", .text "c"⟩)) := by decide

end TableStore
