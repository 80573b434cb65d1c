/-
# Scanning

`Cursor.next` reads one token: it skips white space and comments, then takes the longest piece of
text that is a token.  `tokens` reads a whole source and ends with a single end token.  Text that is
no token becomes an `error` token, so scanning never fails.
-/
import EntityScript.Decimal.Reader
import EntityScript.Text.Blank
import EntityScript.Token.Basic

namespace EntityScript

/-- A place in a source: the text that is still to be read and the line it starts on. -/
structure Cursor where
  rest : List Char
  line : Nat
deriving DecidableEq, Repr

namespace Scanner

/-- The character that starts a comment, which runs to the end of its line. -/
def commentMark : Char := '#'

/-- Skips white space and comments; `comment` tells whether the text starts inside a comment. -/
def skipBlank : (comment : Bool) → List Char → Nat → Cursor
  | _, [], line => ⟨[], line⟩
  | comment, c :: rest, line =>
    if c = '\n' then skipBlank false rest (line + 1)
    else if comment || Text.isBlank c then skipBlank comment rest line
    else if c = commentMark then skipBlank true rest line
    else ⟨c :: rest, line⟩

/-- Whether a character can start a name. -/
def isNameStart (c : Char) : Bool :=
  c.isAlpha || c = '_'

/-- Whether a character can continue a name. -/
def isNamePart (c : Char) : Bool :=
  isNameStart c || Decimal.isDigit c

/-- A number's digits, its first digit included: digits, and a point with digits if digits follow
the point. -/
def takeNumber (cs : List Char) : List Char × List Char :=
  let (whole, rest) := cs.span Decimal.isDigit
  match rest with
  | '.' :: d :: more =>
    if Decimal.isDigit d then
      let (places, rest) := (d :: more).span Decimal.isDigit
      (whole ++ '.' :: places, rest)
    else (whole, rest)
  | rest => (whole, rest)

/-- The kind of an operator of one character, and its kind when an equals sign follows. -/
def operator? : Char → Option (TokenKind × Option TokenKind)
  | '(' => some (.leftParen, none)
  | ')' => some (.rightParen, none)
  | '{' => some (.leftBrace, none)
  | '}' => some (.rightBrace, none)
  | ';' => some (.semicolon, none)
  | ',' => some (.comma, none)
  | '.' => some (.dot, none)
  | '-' => some (.minus, none)
  | '+' => some (.plus, none)
  | '/' => some (.slash, none)
  | '*' => some (.star, none)
  | '!' => some (.bang, some .bangEqual)
  | '=' => some (.equal, some .equalEqual)
  | '<' => some (.less, some .lessEqual)
  | '>' => some (.greater, some .greaterEqual)
  | _ => none

/-- Reads the token whose first character is `c`. -/
def takeToken (c : Char) (rest : List Char) (line : Nat) : Token × Cursor :=
  match operator? c with
  | some (short, some long) =>
    match rest with
    | '=' :: more => (⟨long, String.ofList [c, '='], line⟩, ⟨more, line⟩)
    | _ => (⟨short, String.ofList [c], line⟩, ⟨rest, line⟩)
  | some (short, none) => (⟨short, String.ofList [c], line⟩, ⟨rest, line⟩)
  | none =>
    if c = '"' then
      let (inside, after) := rest.span (· != '"')
      let line := line + inside.count '\n'
      match after with
      | [] => (⟨.error, "Unterminated string.", line⟩, ⟨[], line⟩)
      | quote :: more => (⟨.string, String.ofList (c :: inside ++ [quote]), line⟩, ⟨more, line⟩)
    else if Decimal.isDigit c then
      let (digits, more) := takeNumber (c :: rest)
      (⟨.number, String.ofList digits, line⟩, ⟨more, line⟩)
    else if isNameStart c then
      let (word, more) := (c :: rest).span isNamePart
      let word := String.ofList word
      (⟨.ofWord word, word, line⟩, ⟨more, line⟩)
    else (⟨.error, "Unexpected character '" ++ String.ofList [c] ++ "'.", line⟩, ⟨rest, line⟩)

end Scanner

namespace Cursor

/-- The start of a source. -/
def start (source : String) : Cursor :=
  ⟨source.toList, 1⟩

/-- Reads the next token.  At the end of the source it reads the end token, any number of times. -/
def next (c : Cursor) : Token × Cursor :=
  let c := Scanner.skipBlank false c.rest c.line
  match c.rest with
  | [] => (.eof c.line, c)
  | first :: rest => Scanner.takeToken first rest c.line

/-- Reads `n` tokens. -/
def take : Nat → Cursor → List Token → List Token × Cursor
  | 0, c, read => (read.reverse, c)
  | n + 1, c, read =>
    let (token, c) := c.next
    take n c (token :: read)

/-- Reads tokens up to the end token, at most `n + 1` of them. -/
def drain : Nat → Cursor → List Token → List Token
  | 0, c, read => (c.next.1 :: read).reverse
  | n + 1, c, read =>
    let (token, c) := c.next
    if token.kind = .eof then (token :: read).reverse else drain n c (token :: read)

end Cursor

/-- The tokens of a source, the end token last.  Every other token takes up a character, so there
are at most as many of them as characters. -/
def tokens (source : String) : List Token :=
  let start := Cursor.start source
  start.drain start.rest.length []

end EntityScript
