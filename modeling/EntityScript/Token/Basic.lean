/-
# Tokens

The words of the script language.  A token carries its text and the line on which it ends.
-/

namespace EntityScript

/-- The kinds of token. -/
inductive TokenKind where
  | leftParen
  | rightParen
  | leftBrace
  | rightBrace
  | comma
  | dot
  | minus
  | plus
  | semicolon
  | slash
  | star
  | bang
  | bangEqual
  | equal
  | equalEqual
  | greater
  | greaterEqual
  | less
  | lessEqual
  | identifier
  | string
  | number
  | kwAnd
  | kwElse
  | kwEnd
  | kwFalse
  | kwFun
  | kwIf
  | kwLet
  | kwNil
  | kwOr
  | kwPrint
  | kwReturn
  | kwTrue
  | kwWhile
  | kwYield
  /-- Text that is no token; the token's text is then a message. -/
  | error
  /-- The end of the source. -/
  | eof
deriving DecidableEq, Repr, Inhabited

/-- A token: its kind, its text and the line it ends on, counted from one. -/
structure Token where
  kind : TokenKind
  text : String
  line : Nat
deriving DecidableEq, Repr, Inhabited

/-- The token at the end of a source. -/
def Token.eof (line : Nat) : Token :=
  ⟨.eof, "", line⟩

/-- The words that are not names, with their kinds. -/
def keywords : List (String × TokenKind) :=
  [("and", .kwAnd), ("else", .kwElse), ("end", .kwEnd), ("false", .kwFalse), ("fun", .kwFun),
   ("if", .kwIf), ("let", .kwLet), ("nil", .kwNil), ("or", .kwOr), ("print", .kwPrint),
   ("return", .kwReturn), ("true", .kwTrue), ("while", .kwWhile), ("yield", .kwYield)]

/-- The kind of a word: a keyword's own, or `identifier`. -/
def TokenKind.ofWord (word : String) : TokenKind :=
  (keywords.lookup word).getD .identifier

end EntityScript
