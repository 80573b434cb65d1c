/-
# Reading statements

Statements and declarations, read one after the other.  A declaration that had an error is followed
by a recovery, so that later errors are reported as well.  The limits on jumps are checked against
the sizes of the trees that have been read.
-/
import EntityScript.Compile.Expression

namespace EntityScript

namespace ParseState

/-- Reports a jump that goes too far. -/
def checkJump (p : ParseState) (offset : Nat) : ParseState :=
  if maxOffset < offset then p.complain .jumpTooFar else p

/-- Reports a loop that is too large. -/
def checkLoop (p : ParseState) (offset : Nat) : ParseState :=
  if maxOffset < offset then p.complain .loopTooLarge else p

/-- Opens a block. -/
def enter (p : ParseState) : ParseState :=
  { p with scope := p.scope.enter }

/-- Closes a block; gives the number of locals that it declared. -/
def leave (p : ParseState) : Nat × ParseState :=
  let (dropped, scope) := p.scope.leave
  (dropped, { p with scope := scope })

/-- Reads a condition in parentheses, after the word that asks for it. -/
def readCondition (n : Nat) (word : String) (p : ParseState) : Expr × ParseState :=
  let p := p.expect .leftParen ("'(' after '" ++ word ++ "'")
  let (cond, p) := p.readExpr n .assignment
  (cond, p.expect .rightParen "')' after condition")

/-- Reads a variable declaration, after `let`. -/
def readLet (n : Nat) (p : ParseState) : Stmt × ParseState :=
  let p := p.expect .identifier "variable name"
  let name := p.previous.text
  let p := p.declare name
  let (init, p) := if p.at? .equal then p.advance.readExpr n .assignment else (.nil p.line, p)
  let p := p.expect .semicolon "';' after variable declaration"
  let line := p.line
  let (v, p) := p.define name
  (.declare v init line, p)

/-- Reads the rest of a return statement, after `return`. -/
def readReturn (n : Nat) (p : ParseState) : Stmt × ParseState :=
  if p.at? .semicolon then
    let p := p.advance
    (.ret (.nil p.line) p.line, p)
  else
    let (e, p) := p.readExpr n .assignment
    let p := p.expect .semicolon "';' after return value"
    (.ret e p.line, p)

/-- Reads the rest of a list of parameters; those already read are given latest first. -/
def readParameters : Nat → (read : List String) → ParseState → List String × ParseState
  | 0, read, p => (read.reverse, p.exhaust)
  | n + 1, read, p =>
    let p := if read.length = maxArguments then p.complainAt p.current .tooManyParameters else p
    let p := p.expect .identifier "parameter name"
    let name := p.previous.text
    let p := (p.declare name).settle
    if p.at? .comma then readParameters n (name :: read) p.advance
    else ((name :: read).reverse, p)

/-- Begins a function: its scope and its literals are its own. -/
def openFunction (p : ParseState) : ParseState :=
  { p with scope := Scope.start.enter, literals := [] }

/-- Ends a function: its compiled form becomes a literal of the function around it, whose scope and
literals are given by `outer`. -/
def closeFunction (p outer : ParseState) (name : String) (arity : Nat) (body : Block) :
    Nat × ParseState :=
  let f := Function.assemble ⟨p.unit, p.serial⟩ (some name) arity p.literals body p.line
  let p := { p with scope := outer.scope, literals := outer.literals, serial := p.serial + 1 }
  p.addLiteral (.function f)

mutual

/-- Reads a declaration or a statement, and recovers if it had an error. -/
def readDeclaration : Nat → ParseState → Stmt × ParseState
  | 0, p => (default, p.exhaust)
  | n + 1, p =>
    let (s, p) :=
      if p.at? .kwFun then readFunction n p.advance
      else if p.at? .kwLet then p.advance.readLet n
      else readStatement n p
    (s, if p.panicking then p.synchronize else p)

/-- Reads a function declaration, after `fun`. -/
def readFunction : Nat → ParseState → Stmt × ParseState
  | 0, p => (default, p.exhaust)
  | n + 1, p =>
    let p := p.expect .identifier "function name"
    let name := p.previous.text
    let outer := if p.scope.depth = 0 then p.addGlobal name else (p.declare name).settle
    let p := outer.openFunction.expect .leftParen "'(' after function name"
    let (parameters, p) := if p.at? .rightParen then ([], p) else p.readParameters n []
    let p := p.expect .rightParen "')' after parameters"
    let p := p.expect .leftBrace "'\x7b' before function body"
    let (body, p) := readBlock n .empty p
    let line := p.line
    let (index, p) := p.closeFunction outer name parameters.length body
    let (v, p) := p.define name
    (.function v parameters body line index line, p)

/-- Reads a statement. -/
def readStatement : Nat → ParseState → Stmt × ParseState
  | 0, p => (default, p.exhaust)
  | n + 1, p =>
    match p.current.kind with
    | .kwPrint =>
      let (e, p) := p.advance.readExpr n .assignment
      let p := p.expect .semicolon "';' after value"
      (.print e p.line, p)
    | .kwIf => readIf n p.advance
    | .kwWhile => readWhile n p.advance
    | .kwReturn => p.advance.readReturn n
    | .kwYield =>
      let p := p.advance.expect .semicolon "';' after 'yield'"
      (.yield p.line, p)
    | .kwEnd =>
      let p := p.advance.expect .semicolon "';' after 'end'"
      (.stop p.line, p)
    | .leftBrace =>
      let (body, p) := readBlock n .empty p.advance.enter
      let (dropped, p) := p.leave
      (.block body dropped p.line, p)
    | _ =>
      let (e, p) := p.readExpr n .assignment
      let p := p.expect .semicolon "';' after expression"
      (.expr e p.line, p)

/-- Reads a conditional, after `if`. -/
def readIf : Nat → ParseState → Stmt × ParseState
  | 0, p => (default, p.exhaust)
  | n + 1, p =>
    let (cond, p) := p.readCondition n "if"
    let line := p.line
    let (body, p) := readStatement n p
    let lastLine := p.line
    let p := p.checkJump (skipBody body)
    if p.at? .kwElse then
      let (other, p) := readStatement n p.advance
      (.ifElse cond body other line lastLine, p.checkJump (skipOther other))
    else (.ifThen cond body line lastLine, p)

/-- Reads a loop, after `while`. -/
def readWhile : Nat → ParseState → Stmt × ParseState
  | 0, p => (default, p.exhaust)
  | n + 1, p =>
    let (cond, p) := p.readCondition n "while"
    let line := p.line
    let (body, p) := readStatement n p
    let p := (p.checkLoop (loopBack cond body)).checkJump (skipBody body)
    (.loop cond body line p.line, p)

/-- Reads the rest of a block, after the statements `read`, and its closing brace. -/
def readBlock : Nat → (read : Block) → ParseState → Block × ParseState
  | 0, read, p => (read, p.exhaust)
  | n + 1, read, p =>
    if p.at? .rightBrace || p.at? .eof then (read, p.expect .rightBrace "'\x7d' after block")
    else
      let (s, p) := readDeclaration n p
      readBlock n (read.append s) p

end

/-- Reads the rest of a script, after the statements `read`, and its end token. -/
def readScript : Nat → (read : Block) → ParseState → Block × ParseState
  | 0, read, p => (read, p.exhaust)
  | n + 1, read, p =>
    if p.at? .eof then (read, p.advance)
    else
      let (s, p) := p.readDeclaration n
      readScript n (read.append s) p

end ParseState

end EntityScript
