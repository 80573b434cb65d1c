/-
# From trees to code

The code of a tree is the code of its parts in order, followed by the instructions of the node
itself: operands before operators, conditions before branches.  Branches are skipped by relative
jumps, whose offsets are the sizes of the parts they skip.

`emit t k` puts the code of `t` before the code `k`, and `sizeFrom t n` adds the number of its
instructions to `n`; `length_emit` ties the two together.
-/
import EntityScript.Tree.Basic

namespace EntityScript

/-- The most arguments that a call can pass, and the most parameters of a function. -/
def maxArguments : Nat := 255

/-- The largest offset of a jump. -/
def maxOffset : Nat := 65535

namespace UnaryOp

/-- The instruction of an operator. -/
def instruction : UnaryOp → Instruction
  | .negate => .negate
  | .not => .not

end UnaryOp

namespace BinaryOp

/-- The instructions of an operator.  Only equality, less and greater exist as instructions; the
other comparisons are their opposites. -/
def instructions : BinaryOp → List Instruction
  | .add => [.add]
  | .subtract => [.subtract]
  | .multiply => [.multiply]
  | .divide => [.divide]
  | .equal => [.equal]
  | .notEqual => [.equal, .not]
  | .less => [.less]
  | .lessEqual => [.greater, .not]
  | .greater => [.greater]
  | .greaterEqual => [.less, .not]

end BinaryOp

namespace Place

/-- The instruction that pushes a variable. -/
def getter : Place → Instruction
  | .slot n => .getLocal n
  | .global i => .getGlobal i

/-- The instruction that stores into a variable. -/
def setter : Place → Instruction
  | .slot n => .setLocal n
  | .global i => .setGlobal i

/-- The instruction that stores into a member of a variable. -/
def memberSetter (m : Member) : Place → Instruction
  | .slot n => .setLocalMember n m
  | .global i => .setGlobalMember i m

/-- The instructions that turn the top value into a new variable.  A local is the value on the stack
itself. -/
def definer : Place → List Instruction
  | .slot _ => []
  | .global i => [.defineGlobal i]

end Place

/-- Instructions on one line, before further code. -/
def emitOn (line : Nat) (is : List Instruction) (k : List Placed) : List Placed :=
  is.map (⟨·, line⟩) ++ k

/-! ## Expressions -/

mutual

/-- The code of an expression, before the code `k`. -/
def Expr.emit : Expr → List Placed → List Placed
  | .nil line, k => ⟨.nil, line⟩ :: k
  | .bool b line, k => ⟨if b then .yes else .no, line⟩ :: k
  | .int _ index line, k => ⟨.literal index, line⟩ :: k
  | .float _ index line, k => ⟨.literal index, line⟩ :: k
  | .string _ index line, k => ⟨.literal index, line⟩ :: k
  | .get v line, k => ⟨v.place.getter, line⟩ :: k
  | .set v value line, k => value.emit (⟨v.place.setter, line⟩ :: k)
  | .member e m line, k => e.emit (⟨.getMember m, line⟩ :: k)
  | .setMember v m value line, k => value.emit (⟨v.place.memberSetter m, line⟩ :: k)
  | .unary op e line, k => e.emit (⟨op.instruction, line⟩ :: k)
  | .binary op lhs rhs line, k => lhs.emit (rhs.emit (emitOn line op.instructions k))
  | .call callee arguments line, k =>
    callee.emit (Expr.emitAll arguments
      (⟨.call (min arguments.length maxArguments), line⟩ :: k))
  | .invalid size, k => List.replicate size ⟨.nil, 0⟩ ++ k

/-- The code of several expressions in order, before the code `k`. -/
def Expr.emitAll : List Expr → List Placed → List Placed
  | [], k => k
  | e :: rest, k => e.emit (Expr.emitAll rest k)

end

mutual

/-- `n` plus the number of instructions of an expression. -/
def Expr.sizeFrom : Expr → Nat → Nat
  | .nil _, n => n + 1
  | .bool _ _, n => n + 1
  | .int _ _ _, n => n + 1
  | .float _ _ _, n => n + 1
  | .string _ _ _, n => n + 1
  | .get _ _, n => n + 1
  | .set _ value _, n => value.sizeFrom (n + 1)
  | .member e _ _, n => e.sizeFrom (n + 1)
  | .setMember _ _ value _, n => value.sizeFrom (n + 1)
  | .unary _ e _, n => e.sizeFrom (n + 1)
  | .binary op lhs rhs _, n => lhs.sizeFrom (rhs.sizeFrom (n + op.instructions.length))
  | .call callee arguments _, n => callee.sizeFrom (Expr.sizeAllFrom arguments (n + 1))
  | .invalid size, n => n + size

/-- `n` plus the number of instructions of several expressions. -/
def Expr.sizeAllFrom : List Expr → Nat → Nat
  | [], n => n
  | e :: rest, n => e.sizeFrom (Expr.sizeAllFrom rest n)

end

/-- The number of instructions of an expression. -/
def Expr.size (e : Expr) : Nat :=
  e.sizeFrom 0

/-! ## Statements -/

mutual

/-- `n` plus the number of instructions of a statement. -/
def Stmt.sizeFrom : Stmt → Nat → Nat
  | .expr e _, n => e.sizeFrom (n + 1)
  | .print e _, n => e.sizeFrom (n + 1)
  | .declare v init _, n => init.sizeFrom (n + v.place.definer.length)
  | .function v _ _ _ _ _, n => n + 1 + v.place.definer.length
  | .ifThen cond body _ _, n => cond.sizeFrom (body.sizeFrom (n + 2) + 2)
  | .ifElse cond body other _ _, n => cond.sizeFrom (body.sizeFrom (other.sizeFrom n + 2) + 2)
  | .loop cond body _ _, n => cond.sizeFrom (body.sizeFrom (n + 2) + 2)
  | .ret e _, n => e.sizeFrom (n + 1)
  | .yield _, n => n + 1
  | .stop _, n => n + 1
  | .block body locals _, n => body.sizeFrom (n + locals)

/-- `n` plus the number of instructions of a block. -/
def Block.sizeFrom : Block → Nat → Nat
  | .empty, n => n
  | .append before last, n => before.sizeFrom (last.sizeFrom n)

end

/-- The number of instructions of a statement. -/
def Stmt.size (s : Stmt) : Nat :=
  s.sizeFrom 0

/-- How far the jump over the body of a conditional goes: over the instruction that drops the
condition, the body, and the jump after it. -/
def skipBody (body : Stmt) : Nat :=
  body.size + 2

/-- How far the jump over the alternative of a conditional goes. -/
def skipOther (other : Stmt) : Nat :=
  other.size + 1

/-- How far the jump at the end of a loop goes back: over the body, the instruction that drops the
condition, the exit jump, the condition, and itself. -/
def loopBack (cond : Expr) (body : Stmt) : Nat :=
  cond.size + body.size + 3

mutual

/-- The code of a statement, before the code `k`. -/
def Stmt.emit : Stmt → List Placed → List Placed
  | .expr e line, k => e.emit (⟨.pop, line⟩ :: k)
  | .print e line, k => e.emit (⟨.print, line⟩ :: k)
  | .declare v init line, k => init.emit (emitOn line v.place.definer k)
  | .function v _ _ _ index line, k => ⟨.literal index, line⟩ :: emitOn line v.place.definer k
  | .ifThen cond body line lastLine, k =>
    cond.emit (⟨.jumpIfFalse (skipBody body), line⟩ :: ⟨.pop, line⟩ ::
      body.emit (⟨.jump 1, lastLine⟩ :: ⟨.pop, lastLine⟩ :: k))
  | .ifElse cond body other line lastLine, k =>
    cond.emit (⟨.jumpIfFalse (skipBody body), line⟩ :: ⟨.pop, line⟩ ::
      body.emit (⟨.jump (skipOther other), lastLine⟩ :: ⟨.pop, lastLine⟩ :: other.emit k))
  | .loop cond body line lastLine, k =>
    cond.emit (⟨.jumpIfFalse (skipBody body), line⟩ :: ⟨.pop, line⟩ ::
      body.emit (⟨.loop (loopBack cond body), lastLine⟩ :: ⟨.pop, lastLine⟩ :: k))
  | .ret e line, k => e.emit (⟨.ret, line⟩ :: k)
  | .yield line, k => ⟨.yield, line⟩ :: k
  | .stop line, k => ⟨.stop, line⟩ :: k
  | .block body locals line, k => body.emit (emitOn line (List.replicate locals .pop) k)

/-- The code of a block, before the code `k`. -/
def Block.emit : Block → List Placed → List Placed
  | .empty, k => k
  | .append before last, k => before.emit (last.emit k)

end

/-- The code of a function's body: its statements, then a return without a value. -/
def Block.code (body : Block) (lastLine : Nat) : List Placed :=
  body.emit [⟨.nil, lastLine⟩, ⟨.ret, lastLine⟩]

/-- The function compiled from a body. -/
def Function.assemble (id : FunctionId) (name : Option String) (arity : Nat)
    (literals : List Literal) (body : Block) (lastLine : Nat) : Function :=
  ⟨id, name, arity, ⟨(body.code lastLine).toArray, literals⟩⟩

/-! ## Sizes -/

@[simp]
theorem length_emitOn (line : Nat) (is : List Instruction) (k : List Placed) :
    (emitOn line is k).length = k.length + is.length := by
  simp [emitOn, Nat.add_comm]

mutual

/-- The code of an expression has as many instructions as its size says. -/
theorem Expr.length_emit (e : Expr) (k : List Placed) :
    (e.emit k).length = e.sizeFrom k.length := by
  cases e with
  | nil | bool | int | float | string | get => simp [Expr.emit, Expr.sizeFrom]
  | set v value line => simp [Expr.emit, Expr.sizeFrom, value.length_emit]
  | member e m line => simp [Expr.emit, Expr.sizeFrom, e.length_emit]
  | setMember v m value line => simp [Expr.emit, Expr.sizeFrom, value.length_emit]
  | unary op e line => simp [Expr.emit, Expr.sizeFrom, e.length_emit]
  | binary op lhs rhs line => simp [Expr.emit, Expr.sizeFrom, lhs.length_emit, rhs.length_emit]
  | call callee arguments line =>
    simp [Expr.emit, Expr.sizeFrom, callee.length_emit, Expr.length_emitAll arguments]
  | invalid size => simp [Expr.emit, Expr.sizeFrom, Nat.add_comm]

/-- The code of several expressions has as many instructions as their sizes say. -/
theorem Expr.length_emitAll (es : List Expr) (k : List Placed) :
    (Expr.emitAll es k).length = Expr.sizeAllFrom es k.length := by
  cases es with
  | nil => rfl
  | cons e rest =>
    simp [Expr.emitAll, Expr.sizeAllFrom, e.length_emit, Expr.length_emitAll rest]

end

mutual

/-- The code of a statement has as many instructions as its size says. -/
theorem Stmt.length_emit (s : Stmt) (k : List Placed) :
    (s.emit k).length = s.sizeFrom k.length := by
  cases s with
  | expr e | print e | ret e => simp [Stmt.emit, Stmt.sizeFrom, e.length_emit]
  | declare v init line => simp [Stmt.emit, Stmt.sizeFrom, init.length_emit]
  | function v parameters body lastLine index line =>
    simp [Stmt.emit, Stmt.sizeFrom, Nat.add_right_comm]
  | ifThen cond body line lastLine | loop cond body line lastLine =>
    simp [Stmt.emit, Stmt.sizeFrom, cond.length_emit, body.length_emit]
  | ifElse cond body other line lastLine =>
    simp [Stmt.emit, Stmt.sizeFrom, cond.length_emit, body.length_emit, other.length_emit]
  | yield | stop => simp [Stmt.emit, Stmt.sizeFrom]
  | block body locals line => simp [Stmt.emit, Stmt.sizeFrom, body.length_emit]

/-- The code of a block has as many instructions as its size says. -/
theorem Block.length_emit (b : Block) (k : List Placed) :
    (b.emit k).length = b.sizeFrom k.length := by
  cases b with
  | empty => rfl
  | append before last => simp [Block.emit, Block.sizeFrom, before.length_emit, last.length_emit]

end

end EntityScript
