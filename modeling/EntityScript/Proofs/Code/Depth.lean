/-
# How deep the stack window is

Each instruction changes the number of values in the window of its function by an amount of its own.
Counting these changes through the code from its start gives every place a depth (`depthAt`), also
the places that no instruction before them leads to, such as those after a return.

The code of an expression leaves one value more, and that of a statement leaves the locals it
declares.
-/
import EntityScript.Proofs.Tree.Fits

namespace EntityScript

namespace Instruction

/-- The number of values in the window after an instruction, if there were `d` before it. -/
def flow (d : Nat) : Instruction → Nat
  | .literal _ | .nil | .yes | .no | .getGlobal _ | .getLocal _ => d + 1
  | .pop | .defineGlobal _ | .print | .ret => d - 1
  | .equal | .greater | .less | .add | .subtract | .multiply | .divide => d - 1
  | .setGlobal _ | .setLocal _ | .getMember _ | .setGlobalMember _ _ | .setLocalMember _ _ => d
  | .not | .negate | .jump _ | .jumpIfFalse _ | .loop _ | .yield | .stop => d
  | .call arguments => d - arguments

/-- The number of values that must be in the window before an instruction, slot zero included, which
no instruction takes away. -/
def needs : Instruction → Nat
  | .literal _ | .nil | .yes | .no | .getGlobal _ | .getLocal _ => 1
  | .jump _ | .loop _ | .yield | .stop => 1
  | .pop | .defineGlobal _ | .print | .ret | .setGlobal _ | .setLocal _ | .getMember _ => 2
  | .setGlobalMember _ _ | .setLocalMember _ _ | .not | .negate | .jumpIfFalse _ => 2
  | .equal | .greater | .less | .add | .subtract | .multiply | .divide => 3
  | .call arguments => arguments + 2

/-- The places where execution can go on after the instruction at place `i`. -/
def targets (i : Nat) : Instruction → List Nat
  | .jump offset => [i + 1 + offset]
  | .jumpIfFalse offset => [i + 1, i + 1 + offset]
  | .loop offset => [i + 1 - offset]
  | .ret | .stop => []
  | _ => [i + 1]

/-- The slot that an instruction names. -/
def slot? : Instruction → Option Nat
  | .getLocal slot | .setLocal slot | .setLocalMember slot _ => some slot
  | _ => none

/-- The literal that an instruction names. -/
def literal? : Instruction → Option Nat
  | .literal index | .defineGlobal index | .getGlobal index | .setGlobal index
  | .setGlobalMember index _ => some index
  | _ => none

/-- The literals that an instruction names are there, and those that name globals are texts. -/
def Names (literals : List Literal) : Instruction → Prop
  | .literal index => ∃ l, literals[index]? = some l
  | .defineGlobal index | .getGlobal index | .setGlobal index | .setGlobalMember index _ =>
    ∃ name, literals[index]? = some (.string name)
  | _ => True

/-- The depth of the next place in the code.  After a jump and after the end of a loop that is where
a condition has to be dropped. -/
def after (d : Nat) : Instruction → Nat
  | .jump _ | .loop _ => d + 1
  | i => i.flow d

end Instruction

/-! ## Pieces of code -/

/-- The code has the given piece from place `i` on. -/
def Occurs (code : List Placed) (i : Nat) (piece : List Placed) : Prop :=
  piece <+: code.drop i

namespace Occurs

variable {code a b : List Placed} {i : Nat}

theorem left (h : Occurs code i (a ++ b)) : Occurs code i a :=
  (List.prefix_append a b).trans h

/-- The second of two pieces stands behind the first. -/
theorem right (h : Occurs code i (a ++ b)) : Occurs code (i + a.length) b := by
  obtain ⟨rest, hrest⟩ := h
  refine ⟨rest, ?_⟩
  rw [← List.drop_drop, ← hrest, List.append_assoc, List.drop_left]

theorem tail {p : Placed} (h : Occurs code i (p :: a)) : Occurs code (i + 1) a :=
  right (a := [p]) h

/-- What stands in some code can be read from it. -/
theorem getElem? (h : Occurs code i a) {k : Nat} (hk : k < a.length) : code[i + k]? = a[k]? := by
  obtain ⟨rest, hrest⟩ := h
  rw [← List.getElem?_drop, ← hrest, List.getElem?_append_left hk]

/-- A piece ends before the code it stands in does. -/
theorem le (h : Occurs code i a) (hi : i ≤ code.length) : i + a.length ≤ code.length := by
  have hle := h.length_le
  rw [List.length_drop] at hle
  omega

/-- The place of a piece of code, written in another way. -/
theorem cast {j : Nat} (h : Occurs code i a) (hj : i = j) : Occurs code j a :=
  hj ▸ h

/-- The parts of a conditional or a loop: the condition with its jump, the body, and what
follows. -/
theorem branch {p q : Placed} {bs rest : List Placed}
    (h : Occurs code i (a ++ [p, q] ++ bs ++ rest)) :
    Occurs code i (a ++ [p, q]) ∧ Occurs code (i + a.length + 2) bs ∧
      Occurs code (i + a.length + 2 + bs.length) rest := by
  refine ⟨h.left.left, h.left.right.cast ?_, h.right.cast ?_⟩
  · simp [Nat.add_assoc]
  · simp only [List.length_append, List.length_cons, List.length_nil]
    omega

end Occurs

/-! ## Depths -/

/-- The depth after some code that starts at depth `d`. -/
def depthAfter (d : Nat) (code : List Placed) : Nat :=
  code.foldl (fun d p => p.instruction.after d) d

/-- The depth at a place of some code that starts at depth `d`. -/
def depthAt (d : Nat) (code : List Placed) (i : Nat) : Nat :=
  depthAfter d (code.take i)

/-- The depth at a place of a function, which starts with itself and its arguments. -/
def Function.depth (f : Function) (i : Nat) : Nat :=
  depthAt (1 + f.arity) f.chunk.code.toList i

@[simp] theorem depthAfter_cons (d : Nat) (p : Placed) (ps : List Placed) :
    depthAfter d (p :: ps) = depthAfter (p.instruction.after d) ps := rfl

@[simp] theorem depthAfter_append (d : Nat) (ps qs : List Placed) :
    depthAfter d (ps ++ qs) = depthAfter (depthAfter d ps) qs :=
  List.foldl_append

/-- The depth after a piece of code follows from the depth before it. -/
theorem Occurs.depthAt {d i : Nat} {code ps : List Placed} (h : Occurs code i ps) :
    depthAt d code (i + ps.length) = depthAfter (depthAt d code i) ps := by
  obtain ⟨rest, hrest⟩ := h
  rw [EntityScript.depthAt, List.take_add, ← hrest, List.take_left, depthAfter_append]
  rfl

/-- Dropping the locals of a block leaves the depth that was there before them. -/
theorem depthAfter_pops (d n line : Nat) :
    depthAfter (d + n) (List.replicate n ⟨.pop, line⟩) = d := by
  induction n with
  | zero => rfl
  | succ n ih =>
    rw [List.replicate_succ, depthAfter_cons]
    exact ih

/-- A declaration of a local leaves its value as the local, and one of a global takes it away. -/
theorem depthAfter_definer (d line : Nat) (p : Place) :
    depthAfter (d + 1) (placeOn line p.definer) = d + p.locals := by
  cases p with
  | slot n => rfl
  | global i => rfl

/-- An operator takes two values and leaves one, also where it is made of two instructions. -/
theorem depthAfter_binary (d line : Nat) (op : BinaryOp) :
    depthAfter (d + 2) (placeOn line op.instructions) = d + 1 := by
  cases op <;> rfl

mutual

/-- The code of an expression leaves its value. -/
theorem Expr.depthAfter_postorder {n : Nat} {ls : List Literal} (d : Nat) (e : Expr)
    (h : e.Fits n ls) : depthAfter d e.postorder = d + 1 := by
  cases e with
  | nil | int | float | string => rfl
  | bool b line => cases b <;> rfl
  | get v line =>
    obtain ⟨x, place⟩ := v
    cases place <;> rfl
  | set v value line =>
    rw [Expr.postorder, depthAfter_append, value.depthAfter_postorder d h.2]
    obtain ⟨x, place⟩ := v
    cases place <;> rfl
  | member e m line =>
    rw [Expr.postorder, depthAfter_append, e.depthAfter_postorder d h]
    rfl
  | setMember v m value line =>
    rw [Expr.postorder, depthAfter_append, value.depthAfter_postorder d h.2]
    obtain ⟨x, place⟩ := v
    cases place <;> rfl
  | unary op e line =>
    rw [Expr.postorder, depthAfter_append, e.depthAfter_postorder d h]
    cases op <;> rfl
  | binary op lhs rhs line =>
    rw [Expr.postorder, depthAfter_append, depthAfter_append, lhs.depthAfter_postorder d h.1,
      rhs.depthAfter_postorder (d + 1) h.2]
    exact depthAfter_binary d line op
  | call callee arguments line =>
    obtain ⟨hc, has, hlen⟩ := h
    rw [Expr.postorder, depthAfter_append, depthAfter_append, callee.depthAfter_postorder d hc,
      Expr.depthAfter_postorderAll (d + 1) arguments has, Nat.min_eq_left hlen]
    exact Nat.add_sub_cancel (d + 1) arguments.length
  | invalid size => exact absurd h id

/-- A list of expressions leaves one value for each. -/
theorem Expr.depthAfter_postorderAll {n : Nat} {ls : List Literal} (d : Nat) (es : List Expr)
    (h : Expr.FitsAll n ls es) : depthAfter d (Expr.postorderAll es) = d + es.length := by
  cases es with
  | nil => rfl
  | cons e es =>
    rw [Expr.postorderAll, depthAfter_append, e.depthAfter_postorder d h.1,
      Expr.depthAfter_postorderAll (d + 1) es h.2, List.length_cons]
    omega

end

mutual

/-- The code of a statement leaves the locals that it declares. -/
theorem Stmt.depthAfter_postorder {n : Nat} {ls : List Literal} (d : Nat) (s : Stmt)
    (h : s.Fits n ls) : depthAfter d s.postorder = d + s.locals := by
  cases s with
  | expr e line | print e line | ret e line =>
    rw [Stmt.postorder, depthAfter_append, e.depthAfter_postorder d h]
    rfl
  | declare v init line =>
    rw [Stmt.postorder, depthAfter_append, init.depthAfter_postorder d h.1]
    exact depthAfter_definer d line v.place
  | function v parameters body lastLine index line =>
    rw [Stmt.postorder, depthAfter_append]
    exact depthAfter_definer d line v.place
  | ifThen cond body line lastLine | loop cond body line lastLine =>
    obtain ⟨hc, hb, hz⟩ := h
    rw [Stmt.postorder, depthAfter_append, depthAfter_append, depthAfter_append,
      cond.depthAfter_postorder d hc]
    show depthAfter (depthAfter d body.postorder) _ = d
    rw [body.depthAfter_postorder d hb, hz]
    rfl
  | ifElse cond body other line lastLine =>
    obtain ⟨hc, ⟨hb, hz⟩, ho, hz'⟩ := h
    rw [Stmt.postorder, depthAfter_append, depthAfter_append, depthAfter_append, depthAfter_append,
      cond.depthAfter_postorder d hc]
    show depthAfter (depthAfter (depthAfter d body.postorder) _) _ = d
    rw [body.depthAfter_postorder d hb, hz]
    show depthAfter d other.postorder = d
    rw [other.depthAfter_postorder d ho, hz', Nat.add_zero]
  | yield | stop => rfl
  | block body dropped line =>
    obtain ⟨hb, rfl⟩ := h
    rw [Stmt.postorder, depthAfter_append, body.depthAfter_postorder d hb]
    exact depthAfter_pops d body.locals line

/-- A block without its end leaves the locals of its statements. -/
theorem Block.depthAfter_postorder {n : Nat} {ls : List Literal} (d : Nat) (b : Block)
    (h : b.Fits n ls) : depthAfter d b.postorder = d + b.locals := by
  cases b with
  | empty => rfl
  | append before last =>
    rw [Block.postorder, depthAfter_append, before.depthAfter_postorder d h.1,
      last.depthAfter_postorder _ h.2, Block.locals, Nat.add_assoc]

end

section

variable {code : List Placed} {i n : Nat} {ls : List Literal} (d : Nat)

/-- At the end of an expression there is one value more than at its start. -/
theorem Expr.depthAt_postorder {e : Expr} (h : Occurs code i e.postorder) (hfits : e.Fits n ls) :
    depthAt d code (i + e.postorder.length) = depthAt d code i + 1 :=
  h.depthAt.trans (e.depthAfter_postorder _ hfits)

theorem Expr.depthAt_postorderAll {es : List Expr} (h : Occurs code i (Expr.postorderAll es))
    (hfits : Expr.FitsAll n ls es) :
    depthAt d code (i + (Expr.postorderAll es).length) = depthAt d code i + es.length :=
  h.depthAt.trans (Expr.depthAfter_postorderAll _ es hfits)

/-- At the end of a statement there are the locals more that it declares. -/
theorem Stmt.depthAt_postorder {s : Stmt} (h : Occurs code i s.postorder) (hfits : s.Fits n ls) :
    depthAt d code (i + s.postorder.length) = depthAt d code i + s.locals :=
  h.depthAt.trans (s.depthAfter_postorder _ hfits)

theorem Block.depthAt_postorder {b : Block} (h : Occurs code i b.postorder) (hfits : b.Fits n ls) :
    depthAt d code (i + b.postorder.length) = depthAt d code i + b.locals :=
  h.depthAt.trans (b.depthAfter_postorder _ hfits)

end

end EntityScript
