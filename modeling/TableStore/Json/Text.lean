/-!
# JSON strings

- `write` puts a text between double quotes; the quote, the backslash and the characters below U+0020 are escaped,
  and nothing else;
- `readRest?` reads what follows the opening quote; an escape of half a surrogate pair is refused unless the text is
  only passed over, and so is a bare character below U+0020.
-/

namespace TableStore.Json

/-! ## Writing -/

/-- A hexadecimal digit. -/
def hexDigit (n : Nat) : Char := Nat.digitChar n

/-- A character inside a string. -/
def escape (c : Char) : List Char :=
  match c with
  | '"' => ['\\', '"']
  | '\\' => ['\\', '\\']
  | '\x08' => ['\\', 'b']
  | '\x0C' => ['\\', 'f']
  | '\n' => ['\\', 'n']
  | '\r' => ['\\', 'r']
  | '\t' => ['\\', 't']
  | c => if c.toNat < 0x20 then ['\\', 'u', '0', '0', hexDigit (c.toNat / 16), hexDigit (c.toNat % 16)] else [c]

/-- A text as a JSON string. -/
def writeText (cs : List Char) : List Char := '"' :: (cs.flatMap escape ++ ['"'])

/-! ## Reading -/

/-- The value of a hexadecimal digit. -/
def hexValue? (c : Char) : Option Nat :=
  if '0' ≤ c ∧ c ≤ '9' then some (c.toNat - '0'.toNat)
  else if 'a' ≤ c ∧ c ≤ 'f' then some (c.toNat - 'a'.toNat + 10)
  else if 'A' ≤ c ∧ c ≤ 'F' then some (c.toNat - 'A'.toNat + 10)
  else none

/-- Four hexadecimal digits and the rest. -/
def readHex? : List Char → Option (Nat × List Char)
  | a :: b :: c :: d :: cs => do
    let a ← hexValue? a
    let b ← hexValue? b
    let c ← hexValue? c
    let d ← hexValue? d
    return (a * 4096 + b * 256 + c * 16 + d, cs)
  | _ => none

/-- The first half of a surrogate pair. -/
def isHighSurrogate (n : Nat) : Bool := 0xD800 ≤ n && n < 0xDC00

/-- The second half of a surrogate pair. -/
def isLowSurrogate (n : Nat) : Bool := 0xDC00 ≤ n && n < 0xE000

/-- The character of an escape, after its `\u`; a surrogate needs its other half. -/
def readUnicode? (cs : List Char) : Option (Char × List Char) := do
  let (high, cs) ← readHex? cs
  if isHighSurrogate high then
    match cs with
    | '\\' :: 'u' :: cs =>
      let (low, cs) ← readHex? cs
      if isLowSurrogate low then some (Char.ofNat (0x10000 + (high - 0xD800) * 0x400 + (low - 0xDC00)), cs) else none
    | _ => none
  else if isLowSurrogate high then none
  else some (Char.ofNat high, cs)

/-- The character of an escape, after its backslash. In a text that is only passed over, surrogates may stand alone. -/
def readEscape? (passedOver : Bool) : List Char → Option (Char × List Char)
  | '"' :: cs => some ('"', cs)
  | '\\' :: cs => some ('\\', cs)
  | '/' :: cs => some ('/', cs)
  | 'b' :: cs => some ('\x08', cs)
  | 'f' :: cs => some ('\x0C', cs)
  | 'n' :: cs => some ('\n', cs)
  | 'r' :: cs => some ('\r', cs)
  | 't' :: cs => some ('\t', cs)
  | 'u' :: cs => if passedOver then (readHex? cs).map fun r => (Char.ofNat r.1, r.2) else readUnicode? cs
  | _ => none

/-- The text up to the closing quote, and the rest; a bound on the number of characters comes first. -/
def readCharacters? (passedOver : Bool) : Nat → List Char → Option (List Char × List Char)
  | 0, _ => none
  | _ + 1, [] => none
  | fuel + 1, c :: cs =>
    if c = '"' then some ([], cs)
    else if c = '\\' then do
      let (c, cs) ← readEscape? passedOver cs
      let (text, rest) ← readCharacters? passedOver fuel cs
      return (c :: text, rest)
    else if c.toNat < 0x20 then none
    else (readCharacters? passedOver fuel cs).map fun r => (c :: r.1, r.2)

/-- The text after an opening quote, and the rest. -/
def readRest? (passedOver : Bool) (cs : List Char) : Option (List Char × List Char) :=
  readCharacters? passedOver cs.length cs

example : readRest? false "a\\u00e9\\ud83d\\ude00\\n\" x".toList = some ("aé😀\n".toList, " x".toList) := by decide
example : readRest? false "\\ud83d\"".toList = none := by decide

end TableStore.Json
