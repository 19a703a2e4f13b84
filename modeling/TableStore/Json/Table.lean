import TableStore.Json.Grammar
import TableStore.Schema.Table

/-!
# Table definitions as JSON

- a table is an object with its name and its columns, a column one with its name and the text of its type;
- reading takes the members in any order, passes over members of other names and refuses a member that comes twice
  or is missing (`Fields`); it also takes an array with the two parts in order.
-/

namespace TableStore.Json

variable {α β : Type}

/-! ## Writing -/

/-- A column. -/
def writeColumn (c : Column) : List Char :=
  writeObject [writeMember "name" (writeText c.name.toList), writeMember "type" (writeText c.type.display.toList)]

/-- A table. -/
def writeTable (t : Table) : List Char :=
  writeObject [writeMember "name" (writeText t.name.toList),
    writeMember "columns" (writeArray (t.columns.map writeColumn))]

/-! ## Reading -/

/-- The two members of an object, as far as they have been read. -/
structure Fields (α β : Type) where
  first : Option α := none
  second : Option β := none

/-- The two members as far as they have been read, with one more member. -/
def readField? (firstName secondName : List Char) (readFirst : List Char → Option (α × List Char))
    (readSecond : List Char → Option (β × List Char)) (name : List Char) (f : Fields α β) (cs : List Char) :
    Option (Fields α β × List Char) :=
  if name = firstName then
    if f.first.isSome then none else (readFirst cs).map fun r => (⟨some r.1, f.second⟩, r.2)
  else if name = secondName then
    if f.second.isSome then none else (readSecond cs).map fun r => (⟨f.first, some r.1⟩, r.2)
  else (skipValue? cs).map fun cs => (f, cs)

/-- The two members by name, in any order among others. -/
def readFields? (firstName secondName : List Char) (readFirst : List Char → Option (α × List Char))
    (readSecond : List Char → Option (β × List Char)) (cs : List Char) : Option ((α × β) × List Char) := do
  let (f, cs) ← readMembers? false (readField? firstName secondName readFirst readSecond) {} cs
  let a ← f.first
  let b ← f.second
  return ((a, b), cs)

/-- The two parts of an array. -/
def readPair? (readFirst : List Char → Option (α × List Char)) (readSecond : List Char → Option (β × List Char))
    (cs : List Char) : Option ((α × β) × List Char) := do
  let (a, cs) ← readFirst cs
  let cs ← expect? ',' cs
  let (b, cs) ← readSecond cs
  let cs ← expect? ']' cs
  return ((a, b), cs)

/-- Two parts as an object or as an array. -/
def readParts? (firstName secondName : List Char) (readFirst : List Char → Option (α × List Char))
    (readSecond : List Char → Option (β × List Char)) (cs : List Char) : Option ((α × β) × List Char) :=
  match skipSpace cs with
  | '{' :: cs => readFields? firstName secondName readFirst readSecond cs
  | '[' :: cs => readPair? readFirst readSecond cs
  | _ => none

/-- A text. -/
def readText? (cs : List Char) : Option (String × List Char) := do
  let cs ← expect? '"' cs
  let (s, cs) ← readRest? false cs
  return (String.ofList s, cs)

/-- A column type, by its text. -/
def readType? (cs : List Char) : Option (ColumnType × List Char) := do
  let (s, cs) ← readText? cs
  match ColumnType.read s.toList with
  | .ok t => some (t, cs)
  | .error _ => none

/-- A column. -/
def readColumn? (cs : List Char) : Option (Column × List Char) :=
  (readParts? "name".toList "type".toList readText? readType? cs).map fun r => (⟨r.1.1, r.1.2⟩, r.2)

/-- The columns of a table. -/
def readColumns? (cs : List Char) : Option (List Column × List Char) := (expect? '[' cs).bind (readItems? readColumn?)

/-- The table that a text is. -/
def readTable? (cs : List Char) : Option Table :=
  whole? (fun cs => (readParts? "name".toList "columns".toList readText? readColumns? cs).map fun r =>
    (⟨r.1.1, r.1.2⟩, r.2)) cs

end TableStore.Json
