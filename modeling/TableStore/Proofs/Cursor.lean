import TableStore.Statement.Parse

/-!
# Reading with a position

- a `Cursor.Reader` reads a statement as the position of the next token in the list of all tokens; it does nothing
  without a check: an index has a token, a slice falls on characters, no number is taken from a smaller one, the
  position stays at a token, and every round of a loop takes one (`Slip`);
- so it stops in two ways: it refuses the text with an error, or it slips (`Stop`);
- `Cursor.parse` is the whole reader, one definition for each reader of `Parse`.
-/

namespace TableStore

/-- The ways in which a reader with a position can slip. -/
inductive Slip where
  /-- A position without a token. -/
  | position (p : Nat)
  /-- An index without a token. -/
  | index (i : Nat)
  /-- Tokens up to an index that comes before the first of them, or after all tokens. -/
  | range (start stop : Nat)
  /-- A slice of the text that does not fall on characters. -/
  | slice (start stop : Nat)
  /-- A number taken from a smaller one. -/
  | negative (a b : Nat)
  /-- A round of a loop that takes no token. -/
  | stalled (p : Nat)
  deriving DecidableEq, Repr

/-- The ways in which a reader with a position stops. -/
inductive Stop where
  | slip (s : Slip)
  | refused (e : Error)
  deriving DecidableEq, Repr

/-- A text with its tokens. -/
structure Source where
  text : List Char
  tokens : List Lexeme

namespace Cursor

variable {α : Type}

/-- A reader with a position: the place of the next token. -/
abbrev Reader (α : Type) := StateT Nat (Except Stop) α

/-- Slips. -/
def slip (s : Slip) : Reader α := fun _ => .error (.slip s)

/-- Refuses the text. -/
def refuse (e : Error) : Reader α := fun _ => .error (.refused e)

/-- The position. -/
def position : Reader Nat := fun p => .ok (p, p)

/-- Takes a number from another that is not smaller. -/
def minus (a b : Nat) : Reader Nat := if b ≤ a then pure (a - b) else slip (.negative a b)

/-- Makes sure that a round has taken a token. -/
def progress (start : Nat) : Reader Unit := fun p => if start < p then .ok ((), p) else .error (.slip (.stalled p))

variable (s : Source)

/-! ## Tokens and slices -/

/-- The token at an index; after all tokens it is the end. -/
def tokenAt (i : Nat) : Token := (s.tokens[i]?.map Lexeme.token).getD .finish

/-- The next token. -/
def current : Reader Token := fun p => .ok (tokenAt s p, p)

/-- The token after the next one. -/
def peek : Reader Token := fun p => .ok (tokenAt s (p + 1), p)

/-- Goes to a position, which has to be one of a token. -/
def moveTo (q : Nat) : Reader Unit := fun _ =>
  if q < s.tokens.length then .ok ((), q) else .error (.slip (.position q))

/-- Takes a token, which must not be the last one. -/
def advance : Reader Unit := do
  let p ← position
  moveTo s (p + 1)

/-- The token at an index, with its place in the text. -/
def lexeme (i : Nat) : Reader Lexeme :=
  match s.tokens[i]? with
  | some l => pure l
  | none => slip (.index i)

/-- The tokens from an index up to another. -/
def range (start stop : Nat) : Reader (List Lexeme) :=
  if start ≤ stop ∧ stop ≤ s.tokens.length then pure ((s.tokens.drop start).take (stop - start))
  else slip (.range start stop)

/-- The text between two bytes. -/
def slice (start stop : Nat) : Reader (List Char) :=
  match Text.slice? s.text start stop with
  | some cs => pure cs
  | none => slip (.slice start stop)

/-- The text of the tokens from an index up to another. -/
def source (start stop : Nat) : Reader (List Char) :=
  if stop ≤ start then pure []
  else do
    let first ← lexeme s start
    let last ← lexeme s (← minus stop 1)
    slice s first.start last.stop

/-- The text of a single token. -/
def fragment (i : Nat) : Reader (List Char) := source s i (i + 1)

/-- Refuses the next token, where something else is due. -/
def unexpected (expected : Expectation) : Reader α := do
  if (← current s) = .finish then refuse (.unexpectedEnd expected)
  else do
    let found ← fragment s (← position)
    refuse (.unexpectedToken expected (String.ofList found))

/-- Whether a token comes next. -/
def check (t : Token) : Reader Bool := do
  return (← current s) == t

/-- Takes a token. -/
def expect (t : Token) : Reader Unit := do
  if ← check s t then advance s else unexpected s (.token t)

/-- Takes a name. -/
def name : Reader String := do
  match (← current s).name? with
  | some n => do
    advance s
    return n
  | none => unexpected s .name

/-- Takes the name of a column, which may also stand between single quotes. -/
def columnName : Reader String := do
  match ← current s with
  | .string n => do
    advance s
    return n
  | _ => name s

/-- Takes items with commas between them; a bound on their number comes first. -/
def separated (item : Reader α) : Nat → Reader (List α)
  | 0 => do slip (.stalled (← position))
  | fuel + 1 => do
    let start ← position
    let a ← item
    if ← check s (.mark .comma) then do
      advance s
      progress start
      return a :: (← separated item fuel)
    else return [a]

/-- Takes items with commas between them, no more than there are tokens. -/
def commaList (item : Reader α) : Reader (List α) := do
  separated s item (s.tokens.length - (← position))

/-- Takes tokens as long as they have a property; a bound on their number comes first. -/
def skipWhile (p : Token → Bool) : Nat → Reader Unit
  | 0 => do slip (.stalled (← position))
  | fuel + 1 => do
    if p (← current s) then do
      advance s
      skipWhile p fuel
    else return ()

/-! ## Items -/

/-- The depth of parentheses after a token of an item; parentheses that close nothing do not count. -/
def depthAfter (depth : Nat) : Token → Reader Nat
  | .mark .openParen => return depth + 1
  | .mark .closeParen => if 0 < depth then minus depth 1 else return depth
  | _ => return depth

/-- The first index, from one on, with a stop that no parenthesis encloses; a bound on the rounds comes first. -/
def scanItem (stops : List Token) : Nat → Nat → Nat → Reader Nat
  | 0, _, i => slip (.stalled i)
  | fuel + 1, depth, i =>
    match s.tokens[i]? with
    | none => return i
    | some l =>
      if l.token = .finish then return i
      else if depth = 0 && stops.contains l.token then return i
      else do
        let depth ← depthAfter depth l.token
        scanItem stops fuel depth (i + 1)

/-- The index after an item; there has to be at least one token. -/
def itemEnd (stops : List Token) (expected : Expectation) : Reader Nat := do
  let start ← position
  let stop ← scanItem s stops (s.tokens.length - start + 1) 0 start
  if stop = start then unexpected s expected else return stop

/-- Takes a value. -/
def value : Reader Value := do
  let start ← position
  let stop ← itemEnd s [.mark .comma, .mark .closeParen, .mark .semicolon] .value
  let cs ← source s start stop
  moveTo s stop
  return Literal.read cs

/-- Where an item ends without the name at its end, and the name: at least three tokens, the last two of which are `AS`
and a name. -/
def splitAlias (start stop : Nat) : Reader (Nat × Option String) := do
  if 3 ≤ (← minus stop start) then do
    let before ← lexeme s (← minus stop 2)
    if before.token = .keyword .as then do
      let last ← lexeme s (← minus stop 1)
      match last.token.name? with
      | some n => return (← minus stop 2, some n)
      | none => return (stop, none)
    else return (stop, none)
  else return (stop, none)

/-- Takes an item of a literal row. -/
def rowItem : Reader Item := do
  let start ← position
  let stop ← itemEnd s [.mark .comma, .keyword .union, .mark .semicolon] .expression
  let (shown, name) ← splitAlias s start stop
  let cs ← source s start shown
  moveTo s stop
  return ⟨String.ofList cs, Literal.read cs, name⟩

/-! ## Conditions -/

/-- The condition that tokens make up. -/
def condition? : List Lexeme → Reader (Option Condition)
  | [⟨.name column, _, _⟩, ⟨.mark .eq, _, _⟩, l] =>
    match l.token with
    | .string _ | .quoted _ | .number _ => do
      let cs ← slice s l.start l.stop
      return some ⟨column, Literal.read cs⟩
    | _ => return none
  | _ => return none

/-- Takes the condition at the end of a statement, if there is one. The text of one that is passed over is shown in a
warning. -/
def optionalCondition : Reader (Option Condition) := do
  if ← check s (.keyword .where) then do
    advance s
    let start ← position
    skipWhile s (fun t => t != .finish && t != .mark .semicolon) (s.tokens.length - start)
    let stop ← position
    let c ← condition? s (← range s start stop)
    if c.isNone then do
      let _ ← source s start stop
      return none
    else return c
  else return none

/-! ## Tables -/

/-- Takes a whole number below 2^32. -/
def count : Reader UInt32 := do
  match ← current s with
  | .number n =>
    match ColumnType.readCount? n.toList with
    | some k => do
      advance s
      return k
    | none => unexpected s .count
  | _ => unexpected s .count

/-- Takes the name of a type. -/
def typeName : Reader String := do
  match ← current s with
  | .name n | .quoted n | .string n => do
    advance s
    return n
  | _ => unexpected s .columnType

/-- Takes the arguments of a type, if there are any. -/
def typeArgs : Reader (List UInt32) := do
  if ← check s (.mark .openParen) then do
    advance s
    let args ← commaList s (count s)
    expect s (.mark .closeParen)
    return args
  else return []

/-- The depth of parentheses after a token of a constraint. -/
def depthInside (depth : Nat) : Token → Reader Nat
  | .mark .openParen => return depth + 1
  | .mark .closeParen => minus depth 1
  | _ => return depth

/-- Takes the constraints of a column, up to a comma or a closing parenthesis that is not their own; a bound on the
rounds comes first. -/
def skipConstraints : Nat → Nat → Reader Unit
  | 0, _ => do slip (.stalled (← position))
  | fuel + 1, depth => do
    let t ← current s
    if depth = 0 && (t == .mark .comma || t == .mark .closeParen) then return ()
    else if t = .finish then return ()
    else do
      let depth ← depthInside depth t
      advance s
      skipConstraints fuel depth

/-- Takes a column with its type and its constraints. -/
def columnDef : Reader Column := do
  let columnName ← columnName s
  let type ← typeName s
  let args ← typeArgs s
  skipConstraints s (s.tokens.length - (← position)) 0
  return ⟨columnName, .ofParts type.toList args⟩

/-- Takes a literal row. -/
def literalRow : Reader (List Item) := do
  expect s (.keyword .select)
  commaList s (rowItem s)

/-- Takes literal rows; a bound on their number comes first. -/
def literalRows : Nat → Reader (List (List Item))
  | 0 => do slip (.stalled (← position))
  | fuel + 1 => do
    let start ← position
    let row ← literalRow s
    if ← check s (.keyword .union) then do
      advance s
      expect s (.keyword .all)
      progress start
      return row :: (← literalRows fuel)
    else return [row]

/-- Takes the columns of a new table. -/
def columnDefs : Reader (List Column) := do
  if ← check s (.mark .closeParen) then return [] else commaList s (columnDef s)

/-- Takes `CREATE TABLE` and what follows it. -/
def createTable : Reader Statement := do
  expect s (.keyword .create)
  expect s (.keyword .table)
  let table ← name s
  if ← check s (.keyword .as) then do
    advance s
    let rows ← literalRows s (s.tokens.length - (← position))
    return .createAs table rows
  else do
    expect s (.mark .openParen)
    let columns ← columnDefs s
    expect s (.mark .closeParen)
    return .create ⟨table, columns⟩

/-- Whether a token is a bare word, whatever the case of its letters. -/
def isWord (word : String) : Token → Bool
  | .name n => Text.sameLetters n.toList word.toList
  | _ => false

/-- Takes `IF EXISTS`, which may be there or not. -/
def skipIfExists : Reader Unit := do
  let ifExists := isWord "EXISTS" (← peek s)
  if isWord "IF" (← current s) && ifExists then do
    advance s
    advance s
  else return ()

/-- Takes `DROP TABLE` and what follows it. -/
def dropTable : Reader Statement := do
  expect s (.keyword .drop)
  expect s (.keyword .table)
  skipIfExists s
  return .drop (← name s)

/-! ## Rows -/

/-- Takes the columns of a selection. -/
def projection : Reader Projection := do
  if ← check s (.mark .asterisk) then do
    advance s
    return .all
  else return .columns (← commaList s (name s))

/-- Takes `SELECT` and what follows it. -/
def select : Reader Statement := do
  expect s (.keyword .select)
  let shown ← projection s
  expect s (.keyword .from)
  let table ← name s
  return .select shown table (← optionalCondition s)

/-- Takes the columns that rows are inserted into, if they are listed. -/
def targetColumns : Reader (Option (List String)) := do
  if ← check s (.mark .openParen) then do
    advance s
    let names ← commaList s (columnName s)
    expect s (.mark .closeParen)
    return some names
  else return none

/-- Takes a row of values. -/
def row : Reader (List Value) := do
  expect s (.mark .openParen)
  let values ← commaList s (value s)
  expect s (.mark .closeParen)
  return values

/-- Takes `INSERT INTO` and what follows it. -/
def insert : Reader Statement := do
  expect s (.keyword .insert)
  expect s (.keyword .into)
  let table ← name s
  let columns ← targetColumns s
  expect s (.keyword .values)
  return .insert table columns (← commaList s (row s))

/-- Takes `DELETE FROM` and what follows it. -/
def delete : Reader Statement := do
  expect s (.keyword .delete)
  expect s (.keyword .from)
  let table ← name s
  return .delete table (← optionalCondition s)

/-! ## Whole statements -/

/-- Takes a statement. -/
def statement : Reader Statement := do
  match ← current s, ← peek s with
  | .keyword .create, .keyword .table => createTable s
  | .keyword .drop, .keyword .table => dropTable s
  | .keyword .select, _ => select s
  | .keyword .insert, .keyword .into => insert s
  | .keyword .delete, .keyword .from => delete s
  | .finish, _ => refuse (.unexpectedEnd .statement)
  | _, _ => do
    let found ← fragment s (← position)
    refuse (.unsupportedCommand (String.ofList found))

/-- Takes semicolons and makes sure that nothing else is left. -/
def endOfStatement : Reader Unit := do
  skipWhile s (fun t => t == .mark .semicolon) (s.tokens.length - (← position))
  if ← check s .finish then return () else unexpected s .endOfStatement

/-- The statement that a text is, read with a position. -/
def parse (text : String) : Except Stop Statement :=
  match scan text.toList with
  | .error e => .error (.refused e)
  | .ok tokens =>
    let s : Source := ⟨text.toList, tokens⟩
    StateT.run' (do
      let st ← statement s
      endOfStatement s
      return st) 0

example : (parse "insert into t (a) values ((1), 'x');").toOption =
    some (.insert "t" (some ["a"]) [[.text "(1)", .text "x"]]) := by decide +kernel

/-- Tokens without the end are left after the last of them, which is a slip. -/
example : advance ⟨"a".toList, [⟨.name "a", 0, 1⟩]⟩ 0 = .error (.slip (.position 1)) := rfl

end Cursor

end TableStore
