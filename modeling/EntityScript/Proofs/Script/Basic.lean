/-
# Scripts as they are written

The plain syntax of a script.  Names, numbers and strings stand here as they stand in the source;
slots, literals and jumps have no place yet.  A node that ends with a token of its own keeps the
line of that token, which is the line its instructions will be attributed to.

A function declaration also has a number, its site, which tells it from every other declaration of
the same script, even from one that is written in the same way.
-/
import EntityScript.Tree.Basic

namespace EntityScript

/-- An expression as it is written. -/
inductive Term where
  | nil (line : Nat)
  | bool (b : Bool) (line : Nat)
  | number (text : String) (line : Nat)
  | string (text : String) (line : Nat)
  | name (x : String) (line : Nat)
  /-- `x = value` -/
  | assign (x : String) (value : Term)
  /-- `x.m = value` -/
  | assignMember (x m : String) (value : Term)
  /-- `(e)` -/
  | group (e : Term) (line : Nat)
  /-- `e.m` -/
  | member (e : Term) (m : String) (line : Nat)
  | unary (op : UnaryOp) (e : Term)
  | binary (op : BinaryOp) (lhs rhs : Term)
  | call (callee : Term) (arguments : List Term) (line : Nat)
deriving Inhabited

/-- A statement or a declaration as it is written. -/
inductive Clause where
  /-- `e;` -/
  | expr (e : Term) (line : Nat)
  /-- `print e;` -/
  | print (e : Term) (line : Nat)
  /-- `let x;` or `let x = init;`, the name on `nameLine` -/
  | declare (x : String) (nameLine : Nat) (init : Option Term) (line : Nat)
  /-- `fun x(parameters) { body }` -/
  | function (site : Nat) (x : String) (parameters : List String) (body : List Clause) (line : Nat)
  /-- `if (cond) body`, the condition closed on `line` -/
  | ifThen (cond : Term) (line : Nat) (body : Clause)
  /-- `if (cond) body else other` -/
  | ifElse (cond : Term) (line : Nat) (body other : Clause)
  /-- `while (cond) body` -/
  | loop (cond : Term) (line : Nat) (body : Clause)
  /-- `return;` or `return value;` -/
  | ret (value : Option Term) (line : Nat)
  /-- `yield;` -/
  | yield (line : Nat)
  /-- `end;` -/
  | stop (line : Nat)
  /-- `{ body }` -/
  | block (body : List Clause) (line : Nat)
deriving Inhabited

/-- A whole script: its declarations and statements, and the line on which the source ends. -/
structure Script where
  body : List Clause
  lastLine : Nat
deriving Inhabited

namespace Term

/-- The line on which an expression ends. -/
def lastLine : Term → Nat
  | .nil line => line
  | .bool _ line => line
  | .number _ line => line
  | .string _ line => line
  | .name _ line => line
  | .assign _ value => value.lastLine
  | .assignMember _ _ value => value.lastLine
  | .group _ line => line
  | .member _ _ line => line
  | .unary _ e => e.lastLine
  | .binary _ _ rhs => rhs.lastLine
  | .call _ _ line => line

/-- Whether an expression is a name and nothing else. -/
def isName : Term → Bool
  | .name _ _ => true
  | _ => false

end Term

namespace Clause

/-- The line on which a statement ends. -/
def lastLine : Clause → Nat
  | .expr _ line => line
  | .print _ line => line
  | .declare _ _ _ line => line
  | .function _ _ _ _ line => line
  | .ifThen _ _ body => body.lastLine
  | .ifElse _ _ _ other => other.lastLine
  | .loop _ _ body => body.lastLine
  | .ret _ line => line
  | .yield line => line
  | .stop line => line
  | .block _ line => line

/-- Whether an `else` written right after a statement would become part of it. -/
def isOpen : Clause → Bool
  | .ifThen _ _ _ => true
  | .ifElse _ _ _ other => other.isOpen
  | .loop _ _ body => body.isOpen
  | _ => false

end Clause

end EntityScript
