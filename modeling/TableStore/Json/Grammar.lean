import TableStore.Json.Number
import TableStore.Json.Text

/-!
# JSON arrays and objects

- `readItems?` and `readMembers?` read what follows an opening bracket or brace, item by item and member by member,
  with a reader for the items or for the value of a name;
- a comma stands between two items and nowhere else;
- `skipValue?` passes over any value.
-/

namespace TableStore.Json

variable {α σ : Type}

/-- Whether a character may stand between tokens. -/
def isSpace (c : Char) : Bool := c == ' ' || c == '\n' || c == '\t' || c == '\r'

/-- The text without the space in front of it. -/
def skipSpace (cs : List Char) : List Char := cs.dropWhile isSpace

/-- The rest after a character, with space before it allowed. -/
def expect? (c : Char) (cs : List Char) : Option (List Char) :=
  match skipSpace cs with
  | d :: rest => if d = c then some rest else none
  | [] => none

/-- The rest after a word. -/
def word? : List Char → List Char → Option (List Char)
  | [], cs => some cs
  | w :: ws, c :: cs => if w = c then word? ws cs else none
  | _ :: _, [] => none

/-! ## Items of arrays -/

/-- The items after the first, up to the closing bracket. -/
def readMoreItems? (item : List Char → Option (α × List Char)) : Nat → List Char → Option (List α × List Char)
  | 0, _ => none
  | fuel + 1, cs =>
    match skipSpace cs with
    | ']' :: cs => some ([], cs)
    | ',' :: cs => do
      let (a, cs) ← item cs
      let (as, cs) ← readMoreItems? item fuel cs
      return (a :: as, cs)
    | _ => none

/-- The items up to the closing bracket. -/
def readItems? (item : List Char → Option (α × List Char)) (cs : List Char) : Option (List α × List Char) :=
  match skipSpace cs with
  | ']' :: cs => some ([], cs)
  | cs => do
    let (a, cs) ← item cs
    let (as, cs) ← readMoreItems? item cs.length cs
    return (a :: as, cs)

/-! ## Members of objects -/

/-- A name, a colon and what the reader for values makes of the value. -/
def readMember? (passedOver : Bool) (member : List Char → σ → List Char → Option (σ × List Char)) (s : σ)
    (cs : List Char) : Option (σ × List Char) := do
  let cs ← expect? '"' cs
  let (name, cs) ← readRest? passedOver cs
  let cs ← expect? ':' cs
  member name s cs

/-- The members after the first, up to the closing brace. -/
def readMoreMembers? (passedOver : Bool) (member : List Char → σ → List Char → Option (σ × List Char)) :
    Nat → σ → List Char → Option (σ × List Char)
  | 0, _, _ => none
  | fuel + 1, s, cs =>
    match skipSpace cs with
    | '}' :: cs => some (s, cs)
    | ',' :: cs => do
      let (s, cs) ← readMember? passedOver member s cs
      readMoreMembers? passedOver member fuel s cs
    | _ => none

/-- The members up to the closing brace, gathered from a first state. -/
def readMembers? (passedOver : Bool) (member : List Char → σ → List Char → Option (σ × List Char)) (s : σ)
    (cs : List Char) : Option (σ × List Char) :=
  match skipSpace cs with
  | '}' :: cs => some (s, cs)
  | cs => do
    let (s, cs) ← readMember? passedOver member s cs
    readMoreMembers? passedOver member cs.length s cs

/-! ## Values that are passed over -/

/-- The rest after a value; a bound on its depth comes first. -/
def skipNested? : Nat → List Char → Option (List Char)
  | 0, _ => none
  | fuel + 1, cs =>
    match skipSpace cs with
    | '"' :: cs => (readRest? true cs).map Prod.snd
    | 'n' :: cs => word? ['u', 'l', 'l'] cs
    | 't' :: cs => word? ['r', 'u', 'e'] cs
    | 'f' :: cs => word? ['a', 'l', 's', 'e'] cs
    | '[' :: cs => (readItems? (fun cs => (skipNested? fuel cs).map fun cs => ((), cs)) cs).map Prod.snd
    | '{' :: cs => (readMembers? true (fun _ s cs => (skipNested? fuel cs).map fun cs => (s, cs)) () cs).map Prod.snd
    | cs => skipNumber? cs

/-- The rest after a value. -/
def skipValue? (cs : List Char) : Option (List Char) := skipNested? (cs.length + 1) cs

/-- The reading of a whole text, with space around the value allowed. -/
def whole? (read : List Char → Option (α × List Char)) (cs : List Char) : Option α :=
  match read cs with
  | some (a, rest) => if (skipSpace rest).isEmpty then some a else none
  | none => none

/-! ## Writing -/

/-- Texts with commas between them. -/
def commas : List (List Char) → List Char
  | [] => []
  | [t] => t
  | t :: ts => t ++ ',' :: commas ts

/-- An array of texts. -/
def writeArray (items : List (List Char)) : List Char := '[' :: (commas items ++ [']'])

/-- A name with the text of its value. -/
def writeMember (name : String) (value : List Char) : List Char := writeText name.toList ++ ':' :: value

/-- An object of members. -/
def writeObject (members : List (List Char)) : List Char := '{' :: (commas members ++ ['}'])

end TableStore.Json
