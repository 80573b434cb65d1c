/-
# Static rules and resolved trees

What a script has to obey beyond the grammar, and what every name and constant in it stands for.
The rules are read off the tree from left to right, inner expressions first:

* a name is a local of the function, the nearest one, or else a known global; a local cannot be read
in its own first value, and a block declares no name twice;
* members are `r`, `t`, `x` and `y`, and whole numbers fit sixty-four bits;
* a function has at most 256 literals, 256 locals with slot zero and 255 parameters, a call at most
255 arguments, and jumps go at most 65535 instructions far.

`Term.elaborate` and `Clause.elaborate` give the resolved tree if all rules are kept, and nothing
otherwise; `Script.program?` is the program of a whole script.
-/
import Mathlib.Data.Option.Basic
import EntityScript.Compile.Expression
import EntityScript.Proofs.Script.Basic
import EntityScript.Proofs.Tree.Postorder

namespace EntityScript

/-- What is known at a place of a script: the locals and literals of the function around it, the
globals that may be used, the texts used so far, and the number of the next function. -/
structure Context where
  scope : Scope
  literals : List Literal
  globals : List String
  strings : List String
  unit : Nat
  serial : Nat

namespace Context

/-- The context at the start of a script. -/
def start (unit : Nat) (globals : List String) : Context :=
  ⟨.start, [], globals, [], unit, 1⟩

/-- Notes a text among those of the script. -/
def noteString (c : Context) : Literal → Context
  | .string s => if c.strings.contains s then c else { c with strings := s :: c.strings }
  | _ => c

/-- Adds a literal to the function, if there is room for it. -/
def addLiteral? (c : Context) (l : Literal) : Option (Nat × Context) :=
  if c.literals.length < maxLiterals then
    some (c.literals.length, { c.noteString l with literals := c.literals ++ [l] })
  else none

/-- The literal for a global's name, shared with an equal text. -/
def nameLiteral? (c : Context) (name : String) : Option (Nat × Context) :=
  match Literal.indexOfString? c.literals name with
  | some index => some (index, c)
  | none => c.addLiteral? (.string name)

/-- Allows a global's name to be used. -/
def addGlobal (c : Context) (name : String) : Context :=
  { c with globals := c.globals.insert name }

/-- Makes room for a local, which the innermost block must not have yet.  Outside all blocks nothing
is done. -/
def declare? (c : Context) (name : String) : Option Context :=
  if c.scope.depth = 0 then some c
  else if c.scope.declares name then none
  else (c.scope.add? name).map fun scope => { c with scope := scope }

/-- Lets the latest local be read. -/
def settle (c : Context) : Context :=
  if c.scope.depth = 0 then c else { c with scope := c.scope.settle }

/-- Makes room for a local that can be read at once. -/
def declareSettled? (c : Context) (name : String) : Option Context :=
  (c.declare? name).map settle

/-- The variable that a declaration declares, and what is known after it. -/
def define? (c : Context) (name : String) : Option (Variable × Context) :=
  if c.scope.depth = 0 then
    (c.nameLiteral? name).map fun (index, c) => (⟨name, .global index⟩, c.addGlobal name)
  else some (⟨name, .slot c.scope.lastSlot⟩, c.settle)

/-- The variable that a name stands for.  Slot zero has no name, so nothing is called by the empty
one. -/
def resolve? (c : Context) (name : String) : Option (Variable × Context) :=
  if name = "" then none
  else
    match c.scope.find? name with
    | some (slot, true) => some (⟨name, .slot slot⟩, c)
    | some (_, false) => none
    | none =>
      if c.globals.contains name then
        (c.nameLiteral? name).map fun (index, c) => (⟨name, .global index⟩, c)
      else none

/-- Opens a block. -/
def enter (c : Context) : Context :=
  { c with scope := c.scope.enter }

/-- Closes a block. -/
def leave (c : Context) : Context :=
  { c with scope := c.scope.leave.2 }

/-- Begins a function. -/
def openFunction (c : Context) : Context :=
  { c with scope := Scope.start.enter, literals := [] }

/-- Declares the parameters of a function. -/
def declareAll? : List String → Context → Option Context
  | [], c => some c
  | x :: xs, c => (c.declareSettled? x).bind (declareAll? xs)

/-- Begins the declaration of a function, which can be called by its name in its own body if it is
global. -/
def declareFunction? (c : Context) (name : String) : Option Context :=
  if c.scope.depth = 0 then some (c.addGlobal name) else c.declareSettled? name

/-- Ends a function: what it has become is a literal of the function around it, whose context is
`outer`. -/
def closeFunction? (c outer : Context) (f : Function) : Option (Nat × Context) :=
  { c with scope := outer.scope, literals := outer.literals, serial := c.serial + 1 }.addLiteral?
    (.function f)

end Context

/-- The number that a token's text stands for, as an expression with its literal. -/
def Context.number? (c : Context) (text : String) (line : Nat) : Option (Expr × Context) :=
  match numberLiteral? text with
  | some (.int n) => (c.addLiteral? (.int n)).map fun (index, c) => (.int n index line, c)
  | some (.float bits) => (c.addLiteral? (.float bits)).map fun (index, c) =>
    (.float bits index line, c)
  | _ => none

mutual

/-- The resolved tree of an expression.  At the head of an expression that could be an assignment,
the instruction that reads a variable for one of its members is attributed to the line of the
member. -/
def Term.elaborate : (head : Bool) → Term → Context → Option (Expr × Context)
  | _, .nil line, c => some (.nil line, c)
  | _, .bool b line, c => some (.bool b line, c)
  | _, .number text line, c => c.number? text line
  | _, .string text line, c => do
    let (index, c) ← c.addLiteral? (.string (unquote text))
    return (.string (unquote text) index line, c)
  | _, .name x line, c => do
    let (v, c) ← c.resolve? x
    return (.get v line, c)
  | _, .assign x value, c => do
    let (v, c) ← c.resolve? x
    let (t, c) ← value.elaborate true c
    return (.set v t value.lastLine, c)
  | _, .assignMember x m value, c => do
    let (v, c) ← c.resolve? x
    let m ← Member.ofName? m
    let (t, c) ← value.elaborate true c
    return (.setMember v m t value.lastLine, c)
  | _, .group e _, c => e.elaborate true c
  | true, .member (.name x _) m line, c => do
    let (v, c) ← c.resolve? x
    let m ← Member.ofName? m
    return (.member (.get v line) m line, c)
  | head, .member e m line, c => do
    let (t, c) ← e.elaborate head c
    let m ← Member.ofName? m
    return (.member t m line, c)
  | _, .unary op e, c => do
    let (t, c) ← e.elaborate false c
    return (.unary op t e.lastLine, c)
  | head, .binary op lhs rhs, c => do
    let (l, c) ← lhs.elaborate head c
    let (r, c) ← rhs.elaborate false c
    return (.binary op l r rhs.lastLine, c)
  | head, .call callee arguments line, c => do
    let (f, c) ← callee.elaborate head c
    let (ts, c) ← Term.elaborateAll arguments c
    guard (arguments.length ≤ maxArguments)
    return (.call f ts line, c)

/-- The resolved trees of arguments, each of which can be an assignment. -/
def Term.elaborateAll : List Term → Context → Option (List Expr × Context)
  | [], c => some ([], c)
  | e :: es, c => do
    let (t, c) ← e.elaborate true c
    let (ts, c) ← Term.elaborateAll es c
    return (t :: ts, c)

end

/-- Away from a name at the head of an assignment, the resolved tree of a member is built in the
usual way. -/
theorem Term.elaborate_member {head : Bool} {e : Term} (m : String) (line : Nat) (c : Context)
    (h : head = true → e.isName = false) :
    (Term.member e m line).elaborate head c = (do
      let (t, c) ← e.elaborate head c
      let m ← Member.ofName? m
      return (.member t m line, c)) := by
  cases head with
  | false => cases e <;> simp [Term.elaborate]
  | true =>
    have he := h rfl
    cases e with
    | name x l => simp [Term.isName] at he
    | nil | bool | number | string | assign | assignMember | group | member | unary | binary
    | call =>
      simp [Term.elaborate]

/-- The first value of a variable, or the value that is returned: nil unless one is written. -/
def Context.value? (c : Context) (line : Nat) : Option Term → Option (Expr × Context)
  | none => some (.nil line, c)
  | some e => e.elaborate true c

mutual

/-- The resolved tree of a statement or a declaration. -/
def Clause.elaborate : Clause → Context → Option (Stmt × Context)
  | .expr e line, c => do
    let (t, c) ← e.elaborate true c
    return (.expr t line, c)
  | .print e line, c => do
    let (t, c) ← e.elaborate true c
    return (.print t line, c)
  | .declare x nameLine init line, c => do
    let c ← c.declare? x
    let (t, c) ← c.value? nameLine init
    let (v, c) ← c.define? x
    return (.declare v t line, c)
  | .function site x parameters body line, c => do
    let outer ← c.declareFunction? x
    guard (parameters.length ≤ maxArguments)
    let inner ← outer.openFunction.declareAll? parameters
    let (b, inner) ← Clause.elaborateAll body .empty inner
    guard (site = inner.serial)
    let f := Function.ofBody ⟨inner.unit, site⟩ (some x) parameters.length inner.literals b line
    let (index, c) ← inner.closeFunction? outer f
    let (v, c) ← c.define? x
    return (.function v parameters b line index line, c)
  | .ifThen cond line body, c => do
    let (t, c) ← cond.elaborate true c
    let (b, c) ← body.elaborate c
    guard (b.postorder.length + 2 ≤ maxOffset)
    return (.ifThen t b line body.lastLine, c)
  | .ifElse cond line body other, c => do
    let (t, c) ← cond.elaborate true c
    let (b, c) ← body.elaborate c
    guard (b.postorder.length + 2 ≤ maxOffset)
    let (o, c) ← other.elaborate c
    guard (o.postorder.length + 1 ≤ maxOffset)
    return (.ifElse t b o line body.lastLine, c)
  | .loop cond line body, c => do
    let (t, c) ← cond.elaborate true c
    let (b, c) ← body.elaborate c
    guard (t.postorder.length + b.postorder.length + 3 ≤ maxOffset)
    return (.loop t b line body.lastLine, c)
  | .ret value line, c => do
    let (t, c) ← c.value? line value
    return (.ret t line, c)
  | .yield line, c => some (.yield line, c)
  | .stop line, c => some (.stop line, c)
  | .block body line, c => do
    let (b, c) ← Clause.elaborateAll body .empty c.enter
    return (.block b c.scope.leave.1 line, c.leave)

/-- The resolved trees of statements and declarations in order, after those in `read`. -/
def Clause.elaborateAll : List Clause → (read : Block) → Context → Option (Block × Context)
  | [], read, c => some (read, c)
  | s :: ss, read, c => do
    let (t, c) ← s.elaborate c
    Clause.elaborateAll ss (read.append t) c

end

section

attribute [local simp] Clause.elaborate Clause.elaborateAll

/-- Statements are resolved in what the statements before them have left. -/
theorem Clause.elaborateAll_append (ss ss' : List Clause) (read : Block) (c : Context) :
    Clause.elaborateAll (ss ++ ss') read c =
      (Clause.elaborateAll ss read c).bind fun (read, c) => Clause.elaborateAll ss' read c := by
  induction ss generalizing read c with
  | nil => simp
  | cons s ss ih => cases h : s.elaborate c <;> simp [h, ih]

end

/-- The program that a script becomes, unless it breaks a rule.  The number `unit` tells its
functions from those of other scripts. -/
def Script.program? (s : Script) (unit : Nat) (globals : List String) : Option Program := do
  let (body, c) ← Clause.elaborateAll s.body .empty (.start unit globals)
  return ⟨.ofBody ⟨unit, 0⟩ none 0 c.literals body s.lastLine, c.strings.reverse⟩

end EntityScript
