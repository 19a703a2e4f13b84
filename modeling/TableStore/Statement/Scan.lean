import TableStore.Statement.Token
import TableStore.Error
import TableStore.Text.Utf8
import TableStore.Text.Word
import TableStore.Value.Literal

/-!
# Tokens of a text

- a `Lexeme` is a token with the bytes that it takes in the text;
- between tokens stand blanks and comments, from `--` to the end of the line or from `/*` to the next `*/`, and a
  comment that is not closed goes on to the end of the text (`gap`);
- `readToken` gives the token at the front of a text with the characters that it takes; a number that something else
  is glued to is refused as a whole;
- `scan` gives all tokens of a text, the last of which is `finish`.
-/

namespace TableStore

open Text

/-- A token and its place in the text, in bytes. -/
structure Lexeme where
  token : Token
  start : Nat
  stop : Nat
  deriving DecidableEq, Repr

namespace Scan

/-! ## Between tokens -/

/-- Where between tokens a character stands. -/
inductive Gap where
  | blank
  | lineComment
  | blockComment
  deriving DecidableEq, Repr

/-- The blanks and comments at the front of a text. -/
def gap : Gap → List Char → List Char
  | _, [] => []
  | .lineComment, c :: cs => if c = '\n' then c :: gap .blank cs else c :: gap .lineComment cs
  | .blockComment, '*' :: '/' :: cs => '*' :: '/' :: gap .blank cs
  | .blockComment, c :: cs => c :: gap .blockComment cs
  | .blank, '-' :: '-' :: cs => '-' :: '-' :: gap .lineComment cs
  | .blank, '/' :: '*' :: cs => '/' :: '*' :: gap .blockComment cs
  | .blank, c :: cs => if isBlank c then c :: gap .blank cs else []

/-! ## Single tokens -/

/-- Whether the text starts with a digit. -/
def startsWithDigit : List Char → Bool
  | c :: _ => isDigit c
  | [] => false

/-- Whether a number stands at the front; a minus sign right before a digit or a point belongs to it. -/
def startsNumber : List Char → Bool
  | '-' :: c :: _ => isDigit c || c == '.'
  | '.' :: c :: _ => isDigit c
  | c :: _ => isDigit c
  | [] => false

/-- Whether a character marks an exponent. -/
def isExponentMark (c : Char) : Bool := c == 'e' || c == 'E'

/-- Whether a character is a sign. -/
def isSign (c : Char) : Bool := c == '+' || c == '-'

/-- The characters of an unsigned number: digits, one point, and exponents that digits follow. -/
def numberChars : Bool → List Char → List Char
  | _, [] => []
  | pointed, [c] => if isDigit c || (c == '.' && !pointed) then [c] else []
  | pointed, c :: d :: cs =>
    if isDigit c then c :: numberChars pointed (d :: cs)
    else if c == '.' && !pointed then c :: numberChars true (d :: cs)
    else if isExponentMark c && isDigit d then c :: numberChars pointed (d :: cs)
    else if isExponentMark c && isSign d && startsWithDigit cs then c :: d :: numberChars pointed cs
    else []

/-- The characters of a number. -/
def signedNumberChars : List Char → List Char
  | '-' :: cs => '-' :: numberChars false cs
  | cs => numberChars false cs

/-- The number at the front. -/
def readNumber (cs : List Char) : Except Error (Token × List Char) :=
  let number := signedNumberChars cs
  let rest := cs.drop number.length
  if rest.head?.any startsWord then
    .error (.invalidNumber (String.ofList (number ++ rest.takeWhile inWord)))
  else if (Literal.readNumber? number).isSome then .ok (.number (String.ofList number), number)
  else .error (.invalidNumber (String.ofList number))

/-- The operator or delimiter at the front, with its characters. -/
def readMark? : List Char → Option (Mark × List Char)
  | '<' :: '=' :: _ => some (.le, ['<', '='])
  | '<' :: '>' :: _ => some (.ne, ['<', '>'])
  | '>' :: '=' :: _ => some (.ge, ['>', '='])
  | '!' :: '=' :: _ => some (.ne, ['!', '='])
  | '<' :: _ => some (.lt, ['<'])
  | '>' :: _ => some (.gt, ['>'])
  | '=' :: _ => some (.eq, ['='])
  | '+' :: _ => some (.plus, ['+'])
  | '-' :: _ => some (.minus, ['-'])
  | '*' :: _ => some (.asterisk, ['*'])
  | '/' :: _ => some (.slash, ['/'])
  | '(' :: _ => some (.openParen, ['('])
  | ')' :: _ => some (.closeParen, [')'])
  | ',' :: _ => some (.comma, [','])
  | ';' :: _ => some (.semicolon, [';'])
  | '.' :: _ => some (.dot, ['.'])
  | _ => none

/-- What a quote character makes of the text between two of them. -/
def quotedToken? (q : Char) : Option (String → Token) :=
  if q = '\'' then some .string
  else if q = '"' then some .quoted
  else if q = '`' then some .name
  else none

/-- The token of a bare word. -/
def wordToken (word : List Char) : Token :=
  match Keyword.ofWord? word with
  | some k => .keyword k
  | none => .name (String.ofList word)

/-- The token at the front of a text that stands at a byte, with its characters. -/
def readToken (position : Nat) : List Char → Except Error (Token × List Char)
  | [] => .ok (.finish, [])
  | c :: cs =>
    if startsNumber (c :: cs) then readNumber (c :: cs)
    else match readMark? (c :: cs) with
      | some (m, chars) => .ok (.mark m, chars)
      | none =>
        match quotedToken? c with
        | some token =>
          match readQuoted c cs with
          | some (text, _) => .ok (token (String.ofList text), enclose c text)
          | none => .error (.unterminatedText position)
        | none =>
          if startsWord c then
            let word := (c :: cs).takeWhile inWord
            .ok (wordToken word, word)
          else .error (.unexpectedCharacter c position)

/-! ## Whole texts -/

/-- The tokens of a text that starts at a byte; a bound on their number comes first. -/
def lexemes : Nat → Nat → List Char → Except Error (List Lexeme)
  | 0, _, _ => .error (.fault .stalled)
  | fuel + 1, position, cs => do
    let skipped := gap .blank cs
    let start := position + byteLength skipped
    let cs := cs.drop skipped.length
    let (token, chars) ← readToken start cs
    let stop := start + byteLength chars
    if token = .finish then .ok [⟨token, start, stop⟩]
    else do
      let rest ← lexemes fuel stop (cs.drop chars.length)
      .ok (⟨token, start, stop⟩ :: rest)

end Scan

/-- The tokens of a text. -/
def scan (cs : List Char) : Except Error (List Lexeme) := Scan.lexemes (cs.length + 1) 0 cs

example : (scan "a<='b'".toList).toOption =
    some [⟨.name "a", 0, 1⟩, ⟨.mark .le, 1, 3⟩, ⟨.string "b", 3, 6⟩, ⟨.finish, 6, 6⟩] := by decide

end TableStore
