/-
# The state of the compiler

The compiler reads a list of tokens once, from left to right.  It looks at the current token and
remembers the previous one; it knows the locals and the literals of the function it is in, and the
global names that may be used.  After an error it reports nothing more until it has found the start
of a statement again.
-/
import EntityScript.Code.Function
import EntityScript.Compile.Diagnostic
import EntityScript.Compile.Scope
import EntityScript.Tree.Basic

namespace EntityScript

/-- The state of the compiler between two tokens. -/
structure ParseState where
  /-- The tokens after the current one. -/
  rest : List Token
  previous : Token
  current : Token
  /-- The locals of the function that is being read. -/
  scope : Scope
  /-- The literals of the function that is being read. -/
  literals : List Literal
  /-- The names of globals that may be used here. -/
  globals : List String
  /-- The texts among all literals so far, each once, the latest first. -/
  strings : List String
  /-- The errors so far, the latest first. -/
  diagnostics : List Diagnostic
  /-- Whether an error has been reported from which the compiler has not recovered yet. -/
  panicking : Bool
  /-- The compilation that functions are numbered in. -/
  unit : Nat
  /-- The number of the next function. -/
  serial : Nat
  /-- Whether the budget of recursive calls ran out. -/
  exhausted : Bool

namespace ParseState

/-- The state before the first token. -/
def start (unit : Nat) (globals : List String) (tokens : List Token) : ParseState where
  rest := tokens
  previous := .eof 1
  current := .eof 1
  scope := .start
  literals := []
  globals := globals
  strings := []
  diagnostics := []
  panicking := false
  unit := unit
  serial := 1
  exhausted := false

/-- The line that instructions are attributed to: that of the token read last. -/
def line (p : ParseState) : Nat :=
  p.previous.line

/-- Whether the current token is of a kind. -/
def at? (p : ParseState) (kind : TokenKind) : Bool :=
  p.current.kind == kind

/-- Records that the budget ran out. -/
def exhaust (p : ParseState) : ParseState :=
  { p with exhausted := true }

/-! ## Errors -/

/-- Reports an error at a token, unless one is being recovered from. -/
def complainAt (p : ParseState) (t : Token) (c : Complaint) : ParseState :=
  if p.panicking then p
  else { p with
    panicking := true
    diagnostics := ⟨t.line, .ofToken t, c⟩ :: p.diagnostics }

/-- Reports an error at the token read last. -/
def complain (p : ParseState) (c : Complaint) : ParseState :=
  p.complainAt p.previous c

/-! ## Tokens -/

/-- Makes the first good token of a list current, reporting the bad ones before it.  After the last
token comes an end token on the same line. -/
def shift : List Token → ParseState → ParseState
  | [], p => { p with rest := [], previous := p.current, current := .eof p.current.line }
  | t :: rest, p =>
    if t.kind = .error then shift rest (p.complainAt t (.lexical t.text))
    else { p with rest := rest, previous := p.current, current := t }

/-- Moves on by one token. -/
def advance (p : ParseState) : ParseState :=
  shift p.rest p

/-- Moves on if the current token is of a kind; otherwise reports what was expected. -/
def expect (p : ParseState) (kind : TokenKind) (what : String) : ParseState :=
  if p.at? kind then p.advance else p.complainAt p.current (.expected what)

/-- Whether a token of this kind begins a statement, so that reading can start again at it. -/
def startsStatement : TokenKind → Bool
  | .kwFun | .kwLet | .kwIf | .kwWhile | .kwPrint | .kwReturn | .kwYield | .kwEnd => true
  | _ => false

/-- Whether skipping tokens after an error stops here: at the end, after a semicolon, or before a
word that begins a statement. -/
def atBoundary (p : ParseState) : Bool :=
  p.at? .eof || p.previous.kind == .semicolon || startsStatement p.current.kind

/-- Skips tokens until a boundary is reached. -/
def skip : List Token → ParseState → ParseState
  | [], p => if p.atBoundary then p else shift [] p
  | t :: rest, p =>
    if p.atBoundary then p
    else if t.kind = .error then skip rest { p.complainAt t (.lexical t.text) with rest := rest }
    else skip rest { p with rest := rest, previous := p.current, current := t }

/-- Recovers from an error. -/
def synchronize (p : ParseState) : ParseState :=
  skip p.rest { p with panicking := false }

/-! ## Literals -/

/-- Adds a literal to the function and gives its index. -/
def addLiteral (p : ParseState) (l : Literal) : Nat × ParseState :=
  let p := match l with
    | .string s => if p.strings.contains s then p else { p with strings := s :: p.strings }
    | _ => p
  match Literal.push p.literals l with
  | .ok (index, literals) => (index, { p with literals := literals })
  | .error _ => (0, p.complain .tooManyLiterals)

/-- The literal for a global's name, which is shared with equal texts. -/
def nameLiteral (p : ParseState) (name : String) : Nat × ParseState :=
  match Literal.indexOfString? p.literals name with
  | some index => (index, p)
  | none => p.addLiteral (.string name)

/-! ## Variables -/

/-- Allows a global's name to be used. -/
def addGlobal (p : ParseState) (name : String) : ParseState :=
  { p with globals := p.globals.insert name }

/-- Starts the declaration of a name.  Outside all blocks nothing is done: globals are bound when
the declaration runs. -/
def declare (p : ParseState) (name : String) : ParseState :=
  if p.scope.depth = 0 then p
  else
    let p := if p.scope.declares name then p.complain .duplicateLocal else p
    match p.scope.add? name with
    | some scope => { p with scope := scope }
    | none => p.complain .tooManyLocals

/-- Lets the latest local be read. -/
def settle (p : ParseState) : ParseState :=
  if p.scope.depth = 0 then p else { p with scope := p.scope.settle }

/-- Ends the declaration of a name and gives the variable it declares. -/
def define (p : ParseState) (name : String) : Variable × ParseState :=
  if p.scope.depth = 0 then
    let (index, p) := p.nameLiteral name
    (⟨name, .global index⟩, p.addGlobal name)
  else (⟨name, .slot p.scope.lastSlot⟩, p.settle)

/-- Finds the variable that a name stands for: the nearest local of the function, or else a
global. -/
def resolve (p : ParseState) (name : String) : Option Variable × ParseState :=
  match p.scope.find? name with
  | some (slot, settled) =>
    (some ⟨name, .slot slot⟩, if settled then p else p.complain .ownInitializer)
  | none =>
    if p.globals.contains name then
      let (index, p) := p.nameLiteral name
      (some ⟨name, .global index⟩, p)
    else (none, p.complain (.undefinedVariable name))

end ParseState

end EntityScript
