/-
# Reading expressions

Operators are read by binding strength: after an operand, every operator that binds at least as
strongly as asked for is taken, with operands that bind more strongly.  Only an expression that may
be as weak as an assignment can be one.

All functions take a budget that goes down with every call; `exhausted` in the state records whether
it ever ran out.
-/
import EntityScript.Compile.ParseState
import EntityScript.Decimal.Reader
import EntityScript.Tree.Assembly

namespace EntityScript

/-- Binding strengths, the weakest first. -/
inductive Precedence where
  | assignment
  | disjunction
  | conjunction
  | equality
  | comparison
  | term
  | factor
  | unary
  | call
  | primary
deriving DecidableEq, Repr

namespace Precedence

/-- The position of a strength in the order. -/
def rank : Precedence → Nat
  | .assignment => 0
  | .disjunction => 1
  | .conjunction => 2
  | .equality => 3
  | .comparison => 4
  | .term => 5
  | .factor => 6
  | .unary => 7
  | .call => 8
  | .primary => 9

/-- The next stronger strength. -/
def next : Precedence → Precedence
  | .assignment => .disjunction
  | .disjunction => .conjunction
  | .conjunction => .equality
  | .equality => .comparison
  | .comparison => .term
  | .term => .factor
  | .factor => .unary
  | .unary => .call
  | .call => .primary
  | .primary => .primary

end Precedence

/-- What can follow an operand. -/
inductive Suffix where
  /-- Arguments in parentheses. -/
  | call
  /-- A dot and a member. -/
  | member
  /-- A word that the language reserves and does not support. -/
  | logical (strength : Precedence)
  /-- An operator and its second operand. -/
  | operator (op : BinaryOp) (strength : Precedence)
deriving DecidableEq, Repr

/-- How strongly a suffix binds. -/
def Suffix.strength : Suffix → Precedence
  | .call | .member => .call
  | .logical strength => strength
  | .operator _ strength => strength

/-- The suffix that a token begins. -/
def TokenKind.suffix? : TokenKind → Option Suffix
  | .kwOr => some (.logical .disjunction)
  | .kwAnd => some (.logical .conjunction)
  | .equalEqual => some (.operator .equal .equality)
  | .bangEqual => some (.operator .notEqual .equality)
  | .greater => some (.operator .greater .comparison)
  | .greaterEqual => some (.operator .greaterEqual .comparison)
  | .less => some (.operator .less .comparison)
  | .lessEqual => some (.operator .lessEqual .comparison)
  | .minus => some (.operator .subtract .term)
  | .plus => some (.operator .add .term)
  | .slash => some (.operator .divide .factor)
  | .star => some (.operator .multiply .factor)
  | .leftParen => some .call
  | .dot => some .member
  | _ => none

/-- The text between the quotes of a string token.  Text whose ends are not single bytes has
none. -/
def unquote (text : String) : String :=
  match text.toList with
  | first :: second :: rest =>
    let inside := (second :: rest).dropLast
    if first.utf8Size = 1 && ((second :: rest).getLast?.any (·.utf8Size = 1)) then
      String.ofList inside
    else ""
  | _ => ""

/-- A number token as a literal: with a point a double, without one an integer. -/
def numberLiteral? (text : String) : Option Literal :=
  if text.toList.contains '.' then (Decimal.readBits? text).map .float
  else (Decimal.readInt? text).map .int

namespace ParseState

/-- The number that was read last. -/
def readNumber (p : ParseState) : Expr × ParseState :=
  match numberLiteral? p.previous.text with
  | some (.int n) =>
    let (index, p) := p.addLiteral (.int n)
    (.int n index p.line, p)
  | some (.float bits) =>
    let (index, p) := p.addLiteral (.float bits)
    (.float bits index p.line, p)
  | _ => (.invalid 0, p.complain .numberRange)

/-- The string that was read last. -/
def readString (p : ParseState) : Expr × ParseState :=
  let text := unquote p.previous.text
  let (index, p) := p.addLiteral (.string text)
  (.string text index p.line, p)

/-- Reads the name of a member, after its dot. -/
def readMember (p : ParseState) : Option Member × ParseState :=
  let p := p.expect .identifier "member name after '.'"
  if p.previous.kind = .identifier then
    match Member.ofName? p.previous.text with
    | some m => (some m, p)
    | none => (none, p.complain (.unknownMember p.previous.text))
  else (none, p)

mutual

/-- Reads an expression that binds at least as strongly as `least`. -/
def readExpr : Nat → (least : Precedence) → ParseState → Expr × ParseState
  | 0, _, p => (.invalid 0, p.exhaust)
  | n + 1, least, p =>
    let assignable := least.rank ≤ Precedence.assignment.rank
    match readOperand n assignable p.advance with
    | (none, p) => (.invalid 0, p.complain (.expected "expression"))
    | (some e, p) =>
      let (e, p) := readSuffixes n least e p
      if assignable && p.at? .equal then (e, p.advance.complain .invalidTarget) else (e, p)

/-- Reads an operand that starts with the token read last; `none` if no operand starts so. -/
def readOperand : Nat → (assignable : Bool) → ParseState → Option Expr × ParseState
  | 0, _, p => (some (.invalid 0), p.exhaust)
  | n + 1, assignable, p =>
    match p.previous.kind with
    | .number => p.readNumber.map some id
    | .string => p.readString.map some id
    | .kwTrue => (some (.bool true p.line), p)
    | .kwFalse => (some (.bool false p.line), p)
    | .kwNil => (some (.nil p.line), p)
    | .identifier => (readName n assignable p).map some id
    | .leftParen =>
      let (e, p) := readExpr n .assignment p
      (some e, p.expect .rightParen "')' after expression")
    | .minus =>
      let (e, p) := readExpr n .unary p
      (some (.unary .negate e p.line), p)
    | .bang =>
      let (e, p) := readExpr n .unary p
      (some (.unary .not e p.line), p)
    | _ => (none, p)

/-- Reads what a name begins: the use of a variable or of one of its members, or an assignment. -/
def readName : Nat → (assignable : Bool) → ParseState → Expr × ParseState
  | 0, _, p => (.invalid 0, p.exhaust)
  | n + 1, assignable, p =>
    match p.resolve p.previous.text with
    | (none, p) => (.invalid 0, p)
    | (some v, p) =>
      if assignable && p.at? .equal then
        let (value, p) := readExpr n .assignment p.advance
        (.set v value p.line, p)
      else if assignable && p.at? .dot then
        match p.advance.readMember with
        | (none, p) => (.invalid 0, p)
        | (some m, p) =>
          if p.at? .equal then
            let (value, p) := readExpr n .assignment p.advance
            (.setMember v m value p.line, p)
          else (.member (.get v p.line) m p.line, p)
      else (.get v p.line, p)

/-- Reads everything that follows an operand and binds at least as strongly as `least`. -/
def readSuffixes : Nat → (least : Precedence) → Expr → ParseState → Expr × ParseState
  | 0, _, e, p => (e, p.exhaust)
  | n + 1, least, e, p =>
    match p.current.kind.suffix? with
    | none => (e, p)
    | some suffix =>
      if suffix.strength.rank < least.rank then (e, p)
      else
        let (e, p) := readSuffix n suffix e p.advance
        readSuffixes n least e p

/-- Reads one suffix, after its first token. -/
def readSuffix : Nat → Suffix → Expr → ParseState → Expr × ParseState
  | 0, _, e, p => (e, p.exhaust)
  | n + 1, .call, callee, p =>
    let (arguments, p) := if p.at? .rightParen then ([], p) else readArguments n [] p
    let p := p.expect .rightParen "')' after arguments"
    (.call callee arguments p.line, p)
  | _ + 1, .member, e, p =>
    match p.readMember with
    | (some m, p) => (.member e m p.line, p)
    | (none, p) => (e, p)
  | n + 1, .logical strength, lhs, p =>
    let (rhs, p) := readExpr n strength.next (p.complain .logicalOperator)
    (.invalid (lhs.size + rhs.size), p)
  | n + 1, .operator op strength, lhs, p =>
    let (rhs, p) := readExpr n strength.next p
    (.binary op lhs rhs p.line, p)

/-- Reads the rest of a list of arguments; those already read are given latest first. -/
def readArguments : Nat → (read : List Expr) → ParseState → List Expr × ParseState
  | 0, read, p => (read.reverse, p.exhaust)
  | n + 1, read, p =>
    let (e, p) := readExpr n .assignment p
    let p := if read.length = maxArguments then p.complain .tooManyArguments else p
    if p.at? .comma then readArguments n (e :: read) p.advance else ((e :: read).reverse, p)

end

end ParseState

end EntityScript
