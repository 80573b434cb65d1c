/-
# Syntax trees

A script as a tree.  Every node that stands for instructions carries the source line these
instructions are attributed to, and every name and constant carries where the compiled code finds
it: a slot of the function's stack window, or an index into the function's literals.  Forgetting
lines, slots and indices leaves the plain abstract syntax.
-/
import EntityScript.Code.Function

namespace EntityScript

/-- Where compiled code finds a variable. -/
inductive Place where
  /-- A local, at this position of the function's stack window. -/
  | slot (n : Nat)
  /-- A global, named by the literal with this index. -/
  | global (index : Nat)
deriving DecidableEq, Repr, Inhabited

/-- A variable that has been resolved. -/
structure Variable where
  name : String
  place : Place
deriving DecidableEq, Repr, Inhabited

/-- The operators with one operand. -/
inductive UnaryOp where
  | negate
  | not
deriving DecidableEq, Repr, Inhabited

/-- The operators with two operands. -/
inductive BinaryOp where
  | add
  | subtract
  | multiply
  | divide
  | equal
  | notEqual
  | less
  | lessEqual
  | greater
  | greaterEqual
deriving DecidableEq, Repr, Inhabited

/-- An expression. -/
inductive Expr where
  | nil (line : Nat)
  | bool (b : Bool) (line : Nat)
  | int (n : Int64) (index line : Nat)
  | float (bits : UInt64) (index line : Nat)
  | string (text : String) (index line : Nat)
  /-- The value of a variable. -/
  | get (v : Variable) (line : Nat)
  /-- `v = value` -/
  | set (v : Variable) (value : Expr) (line : Nat)
  /-- `e.m` -/
  | member (e : Expr) (m : Member) (line : Nat)
  /-- `v.m = value` -/
  | setMember (v : Variable) (m : Member) (value : Expr) (line : Nat)
  | unary (op : UnaryOp) (e : Expr) (line : Nat)
  | binary (op : BinaryOp) (lhs rhs : Expr) (line : Nat)
  | call (callee : Expr) (arguments : List Expr) (line : Nat)
  /-- What stands in a tree where the source had an error.  Such a tree is never run; the node only
  counts the instructions that were read before the error. -/
  | invalid (size : Nat)
deriving Inhabited

mutual

/-- A statement or a declaration. -/
inductive Stmt where
  /-- `e;` -/
  | expr (e : Expr) (line : Nat)
  /-- `print e;` -/
  | print (e : Expr) (line : Nat)
  /-- `let v = init;` -/
  | declare (v : Variable) (init : Expr) (line : Nat)
  /-- `fun v(parameters) { body }`; the body ends on `lastLine`, and the compiled function is the
  literal with the given index. -/
  | function (v : Variable) (parameters : List String) (body : Block) (lastLine index line : Nat)
  /-- `if (cond) body`; the condition ends on `line` and the body on `lastLine`. -/
  | ifThen (cond : Expr) (body : Stmt) (line lastLine : Nat)
  /-- `if (cond) body else other` -/
  | ifElse (cond : Expr) (body other : Stmt) (line lastLine : Nat)
  /-- `while (cond) body` -/
  | loop (cond : Expr) (body : Stmt) (line lastLine : Nat)
  /-- `return e;` -/
  | ret (e : Expr) (line : Nat)
  /-- `yield;` -/
  | yield (line : Nat)
  /-- `end;` -/
  | stop (line : Nat)
  /-- `{ body }`, with the number of locals that are dropped at its end. -/
  | block (body : Block) (locals line : Nat)

/-- Statements in order, the last one outermost. -/
inductive Block where
  | empty
  | append (before : Block) (last : Stmt)

end

instance : Inhabited Stmt := ⟨.yield 0⟩
instance : Inhabited Block := ⟨.empty⟩

/-- The statements of a block, in order. -/
def Block.toList : Block → List Stmt
  | .empty => []
  | .append before last => before.toList ++ [last]

end EntityScript
