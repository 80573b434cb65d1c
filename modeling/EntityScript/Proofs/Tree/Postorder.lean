/-
# Code in post-order

The code of a tree as one list: the code of its parts from left to right, then the instructions of
the node.  A conditional and a loop have jumps between their parts; how far these go is counted in
instructions of the parts they skip.

`Expr.emit`, which puts code before other code, and `Expr.sizeFrom`, which only counts it, are the
same thing seen from the end of the code (`emit_eq`, `sizeFrom_eq`).
-/
import EntityScript.Tree.Assembly
import Mathlib.Tactic.Common

namespace EntityScript

/-- Instructions on one line. -/
def placeOn (line : Nat) (is : List Instruction) : List Placed :=
  is.map (⟨·, line⟩)

@[simp] theorem length_placeOn (line : Nat) (is : List Instruction) :
    (placeOn line is).length = is.length := List.length_map _

mutual

/-- The code of an expression. -/
def Expr.postorder : Expr → List Placed
  | .nil line => [⟨.nil, line⟩]
  | .bool b line => [⟨if b then .yes else .no, line⟩]
  | .int _ index line => [⟨.literal index, line⟩]
  | .float _ index line => [⟨.literal index, line⟩]
  | .string _ index line => [⟨.literal index, line⟩]
  | .get v line => [⟨v.place.getter, line⟩]
  | .set v value line => value.postorder ++ [⟨v.place.setter, line⟩]
  | .member e m line => e.postorder ++ [⟨.getMember m, line⟩]
  | .setMember v m value line => value.postorder ++ [⟨v.place.memberSetter m, line⟩]
  | .unary op e line => e.postorder ++ [⟨op.instruction, line⟩]
  | .binary op lhs rhs line => lhs.postorder ++ rhs.postorder ++ placeOn line op.instructions
  | .call callee arguments line =>
    callee.postorder ++ Expr.postorderAll arguments ++
      [⟨.call (min arguments.length maxArguments), line⟩]
  | .invalid size => List.replicate size ⟨.nil, 0⟩

/-- The code of several expressions. -/
def Expr.postorderAll : List Expr → List Placed
  | [] => []
  | e :: es => e.postorder ++ Expr.postorderAll es

end

mutual

/-- The code of a statement. -/
def Stmt.postorder : Stmt → List Placed
  | .expr e line => e.postorder ++ [⟨.pop, line⟩]
  | .print e line => e.postorder ++ [⟨.print, line⟩]
  | .declare v init line => init.postorder ++ placeOn line v.place.definer
  | .function v _ _ _ index line => [⟨.literal index, line⟩] ++ placeOn line v.place.definer
  | .ifThen cond body line lastLine =>
    cond.postorder ++ [⟨.jumpIfFalse (body.postorder.length + 2), line⟩, ⟨.pop, line⟩] ++
      body.postorder ++ [⟨.jump 1, lastLine⟩, ⟨.pop, lastLine⟩]
  | .ifElse cond body other line lastLine =>
    cond.postorder ++ [⟨.jumpIfFalse (body.postorder.length + 2), line⟩, ⟨.pop, line⟩] ++
      body.postorder ++ [⟨.jump (other.postorder.length + 1), lastLine⟩, ⟨.pop, lastLine⟩] ++
      other.postorder
  | .loop cond body line lastLine =>
    cond.postorder ++ [⟨.jumpIfFalse (body.postorder.length + 2), line⟩, ⟨.pop, line⟩] ++
      body.postorder ++
      [⟨.loop (cond.postorder.length + body.postorder.length + 3), lastLine⟩, ⟨.pop, lastLine⟩]
  | .ret e line => e.postorder ++ [⟨.ret, line⟩]
  | .yield line => [⟨.yield, line⟩]
  | .stop line => [⟨.stop, line⟩]
  | .block body locals line => body.postorder ++ List.replicate locals ⟨.pop, line⟩

/-- The code of a block. -/
def Block.postorder : Block → List Placed
  | .empty => []
  | .append before last => before.postorder ++ last.postorder

end

/-- The function made of a body: its code, then a return without a value. -/
def Function.ofBody (id : FunctionId) (name : Option String) (arity : Nat) (literals : List Literal)
    (body : Block) (lastLine : Nat) : Function :=
  ⟨id, name, arity, ⟨(body.postorder ++ placeOn lastLine [.nil, .ret]).toArray, literals⟩⟩

/-! ## The two other views of the code -/

mutual

/-- The code of an expression is written in front of what comes after it. -/
theorem Expr.emit_eq (e : Expr) (k : List Placed) : e.emit k = e.postorder ++ k := by
  cases e with
  | nil | bool | int | float | string | get => simp [Expr.emit, Expr.postorder]
  | set v value line => simp [Expr.emit, Expr.postorder, value.emit_eq]
  | member e m line => simp [Expr.emit, Expr.postorder, e.emit_eq]
  | setMember v m value line => simp [Expr.emit, Expr.postorder, value.emit_eq]
  | unary op e line => simp [Expr.emit, Expr.postorder, e.emit_eq]
  | binary op lhs rhs line =>
    simp [Expr.emit, Expr.postorder, lhs.emit_eq, rhs.emit_eq, emitOn, placeOn]
  | call callee arguments line =>
    simp [Expr.emit, Expr.postorder, callee.emit_eq, Expr.emitAll_eq arguments]
  | invalid size => simp [Expr.emit, Expr.postorder]

theorem Expr.emitAll_eq (es : List Expr) (k : List Placed) :
    Expr.emitAll es k = Expr.postorderAll es ++ k := by
  cases es with
  | nil => rfl
  | cons e rest => simp [Expr.emitAll, Expr.postorderAll, e.emit_eq, Expr.emitAll_eq rest]

end

/-- The size of an expression is the length of its code. -/
theorem Expr.sizeFrom_eq (e : Expr) (n : Nat) : e.sizeFrom n = e.postorder.length + n := by
  have h := e.length_emit (List.replicate n ⟨.nil, 0⟩)
  rw [e.emit_eq, List.length_append, List.length_replicate] at h
  exact h.symm

mutual

theorem Stmt.sizeFrom_eq (s : Stmt) (n : Nat) : s.sizeFrom n = s.postorder.length + n := by
  cases s with
  | expr e line | print e line | ret e line =>
    simp [Stmt.sizeFrom, Stmt.postorder, e.sizeFrom_eq]
    omega
  | declare v init line =>
    simp [Stmt.sizeFrom, Stmt.postorder, init.sizeFrom_eq]
    omega
  | function v parameters body lastLine index line =>
    simp [Stmt.sizeFrom, Stmt.postorder]
    omega
  | ifThen cond body line lastLine | loop cond body line lastLine =>
    simp [Stmt.sizeFrom, Stmt.postorder, cond.sizeFrom_eq, body.sizeFrom_eq]
    omega
  | ifElse cond body other line lastLine =>
    simp [Stmt.sizeFrom, Stmt.postorder, cond.sizeFrom_eq, body.sizeFrom_eq, other.sizeFrom_eq]
    omega
  | yield | stop =>
    simp [Stmt.sizeFrom, Stmt.postorder]
    omega
  | block body locals line =>
    simp [Stmt.sizeFrom, Stmt.postorder, body.sizeFrom_eq]
    omega

theorem Block.sizeFrom_eq (b : Block) (n : Nat) : b.sizeFrom n = b.postorder.length + n := by
  cases b with
  | empty => simp [Block.sizeFrom, Block.postorder]
  | append before last =>
    simp [Block.sizeFrom, Block.postorder, before.sizeFrom_eq, last.sizeFrom_eq]
    omega

end

/-- The jump over the body of a conditional passes the jump behind it as well. -/
theorem skipBody_eq (body : Stmt) : skipBody body = body.postorder.length + 2 := by
  rw [skipBody, Stmt.size, body.sizeFrom_eq, Nat.add_zero]

/-- The jump over the other branch passes the instruction that drops the condition. -/
theorem skipOther_eq (other : Stmt) : skipOther other = other.postorder.length + 1 := by
  rw [skipOther, Stmt.size, other.sizeFrom_eq, Nat.add_zero]

/-- The jump at the end of a loop goes back to its condition. -/
theorem loopBack_eq (cond : Expr) (body : Stmt) :
    loopBack cond body = cond.postorder.length + body.postorder.length + 3 := by
  rw [loopBack, Expr.size, Stmt.size, cond.sizeFrom_eq, body.sizeFrom_eq]
  rfl

mutual

/-- The code of a statement is written in front of what comes after it. -/
theorem Stmt.emit_eq (s : Stmt) (k : List Placed) : s.emit k = s.postorder ++ k := by
  cases s with
  | expr e line | print e line | ret e line => simp [Stmt.emit, Stmt.postorder, e.emit_eq]
  | declare v init line => simp [Stmt.emit, Stmt.postorder, init.emit_eq, emitOn, placeOn]
  | function v parameters body lastLine index line =>
    simp [Stmt.emit, Stmt.postorder, emitOn, placeOn]
  | ifThen cond body line lastLine =>
    simp [Stmt.emit, Stmt.postorder, cond.emit_eq, body.emit_eq, skipBody_eq]
  | loop cond body line lastLine =>
    simp [Stmt.emit, Stmt.postorder, cond.emit_eq, body.emit_eq, skipBody_eq, loopBack_eq]
  | ifElse cond body other line lastLine =>
    simp [Stmt.emit, Stmt.postorder, cond.emit_eq, body.emit_eq, other.emit_eq, skipBody_eq,
      skipOther_eq]
  | yield | stop => simp [Stmt.emit, Stmt.postorder]
  | block body locals line => simp [Stmt.emit, Stmt.postorder, body.emit_eq, emitOn]

theorem Block.emit_eq (b : Block) (k : List Placed) : b.emit k = b.postorder ++ k := by
  cases b with
  | empty => rfl
  | append before last => simp [Block.emit, Block.postorder, before.emit_eq, last.emit_eq]

end

/-- A function is assembled from the code of its body in post-order. -/
theorem Function.assemble_eq (id : FunctionId) (name : Option String) (arity : Nat)
    (literals : List Literal) (body : Block) (lastLine : Nat) :
    Function.assemble id name arity literals body lastLine =
      Function.ofBody id name arity literals body lastLine := by
  rw [Function.assemble, Function.ofBody, Block.code, body.emit_eq]
  rfl

end EntityScript
