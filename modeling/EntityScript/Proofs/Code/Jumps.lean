/-
# Where jumps lead

Jumps are relative, so a piece of code means the same wherever it stands if its jumps stay in it.  A
conditional and a loop jump over whole parts, and the code of every statement keeps its jumps to
itself (`Stmt.inward_postorder`), also if the tree does not fit a function.
-/
import EntityScript.Proofs.Code.Depth

namespace EntityScript

/-- Whether an instruction is a jump. -/
def Instruction.isJump : Instruction → Bool
  | .jump _ | .jumpIfFalse _ | .loop _ => true
  | _ => false

/-- Whether an instruction can do something other than going on with the next one, calls aside. -/
def Instruction.isControl : Instruction → Bool
  | .jump _ | .jumpIfFalse _ | .loop _ | .ret | .yield | .stop => true
  | _ => false

/-- An instruction that only goes on is no jump. -/
theorem Instruction.isJump_of_not_isControl {instruction : Instruction}
    (h : instruction.isControl = false) :
    instruction.isJump = false := by
  cases instruction with
  | jump | jumpIfFalse | loop | ret | yield | stop => cases h
  | literal | nil | yes | no | pop | defineGlobal | getGlobal | setGlobal | getLocal | setLocal
  | getMember | setGlobalMember | setLocalMember | equal | greater | less | add | subtract
  | multiply | divide | not | negate | print | call => rfl

/-- All jumps of some code lead to a place up to `bound`, and none to a place before the code. -/
def Bounded (bound : Nat) (code : List Placed) : Prop :=
  ∀ i p, code[i]? = some p → (∀ j ∈ p.instruction.targets i, j ≤ bound) ∧
    ∀ offset, p.instruction = .loop offset → offset ≤ i + 1

/-- All jumps of some code stay in it, or lead to its end. -/
def Inward (code : List Placed) : Prop :=
  Bounded code.length code

section

variable {a b : List Placed} {i j k n : Nat} {p : Placed} {instruction : Instruction}

/-- Where an instruction leads does not depend on what stands before the piece it is in. -/
theorem targets_add (hback : ∀ offset, instruction = .loop offset → offset ≤ i + 1)
    (hj : j ∈ instruction.targets (k + i)) : ∃ j', j = k + j' ∧ j' ∈ instruction.targets i := by
  cases instruction with
  | loop offset =>
    have hle := hback offset rfl
    obtain rfl := List.mem_singleton.mp hj
    exact ⟨i + 1 - offset, by omega, List.mem_singleton_self _⟩
  | jumpIfFalse offset =>
    rcases List.mem_cons.mp hj with rfl | hj
    · exact ⟨i + 1, rfl, List.mem_cons_self⟩
    · obtain rfl := List.mem_singleton.mp hj
      exact ⟨i + 1 + offset, by omega, List.mem_cons_of_mem _ List.mem_cons_self⟩
  | jump offset =>
    obtain rfl := List.mem_singleton.mp hj
    exact ⟨i + 1 + offset, by omega, List.mem_singleton_self _⟩
  | ret | stop => cases hj
  | literal | nil | yes | no | pop | defineGlobal | getGlobal | setGlobal | getLocal | setLocal
  | getMember | setGlobalMember | setLocalMember | equal | greater | less | add | subtract
  | multiply | divide | not | negate | print | call | yield =>
    obtain rfl := List.mem_singleton.mp hj
    exact ⟨i + 1, rfl, List.mem_singleton_self _⟩

/-- An instruction that is no jump leads to the next place, if it leads anywhere. -/
theorem Instruction.targets_of_not_jump (h : instruction.isJump = false)
    (hj : j ∈ instruction.targets i) :
    j = i + 1 := by
  cases instruction with
  | jump | jumpIfFalse | loop => cases h
  | ret | stop => cases hj
  | literal | nil | yes | no | pop | defineGlobal | getGlobal | setGlobal | getLocal | setLocal
  | getMember | setGlobalMember | setLocalMember | equal | greater | less | add | subtract
  | multiply | divide | not | negate | print | call | yield => exact List.mem_singleton.mp hj

/-! ## Pieces put together -/

theorem Bounded.mono {m : Nat} (h : Bounded m a) (hle : m ≤ n) : Bounded n a :=
  fun i p hp => ⟨fun j hj => Nat.le_trans ((h i p hp).1 j hj) hle, (h i p hp).2⟩

/-- The first piece may jump into the second, and both as far as the bound. -/
theorem Bounded.append (ha : Bounded (a.length + n) a) (hb : Bounded n b) :
    Bounded (a.length + n) (a ++ b) := by
  intro i p hp
  by_cases hi : i < a.length
  · rw [List.getElem?_append_left hi] at hp
    exact ha i p hp
  · obtain ⟨k, rfl⟩ := Nat.exists_eq_add_of_le (Nat.le_of_not_lt hi)
    rw [List.getElem?_append_right (Nat.le_add_right _ _), Nat.add_sub_cancel_left] at hp
    obtain ⟨hto, hback⟩ := hb k p hp
    refine ⟨fun j hj => ?_, fun offset hloop => ?_⟩
    · obtain ⟨j', rfl, hj'⟩ := targets_add hback hj
      exact Nat.add_le_add_left (hto j' hj') _
    · have hle := hback offset hloop
      omega

/-- An instruction at the end, which may jump back into the code before it. -/
theorem Bounded.snoc (ha : Bounded n a) (hto : ∀ j ∈ p.instruction.targets a.length, j ≤ n)
    (hback : ∀ offset, p.instruction = .loop offset → offset ≤ a.length + 1) :
    Bounded n (a ++ [p]) := by
  intro i q hq
  by_cases hi : i < a.length
  · rw [List.getElem?_append_left hi] at hq
    exact ha i q hq
  · obtain ⟨hlt, rfl⟩ := List.getElem?_eq_some_iff.mp hq
    rw [List.length_append, List.length_singleton] at hlt
    obtain rfl : i = a.length := by omega
    rw [List.getElem_append_right (Nat.le_refl _)]
    simp only [Nat.sub_self, List.getElem_cons_zero]
    exact ⟨hto, hback⟩

/-- Code without jumps goes no further than its end. -/
theorem bounded_of_straight (h : ∀ p ∈ a, p.instruction.isJump = false) : Bounded a.length a := by
  intro i p hp
  obtain ⟨hlt, rfl⟩ := List.getElem?_eq_some_iff.mp hp
  have hjump := h _ (List.getElem_mem hlt)
  refine ⟨fun j hj => ?_, fun offset hloop => ?_⟩
  · rw [Instruction.targets_of_not_jump hjump hj]
    exact hlt
  · rw [hloop] at hjump
    cases hjump

theorem inward_nil : Inward [] :=
  bounded_of_straight fun _ hp => absurd hp List.not_mem_nil

theorem inward_of_straight (h : ∀ p ∈ a, p.instruction.isJump = false) : Inward a :=
  bounded_of_straight h

/-- Two pieces that keep their jumps to themselves do so together. -/
theorem Inward.append (ha : Inward a) (hb : Inward b) : Inward (a ++ b) := by
  rw [Inward, List.length_append]
  exact (ha.mono (Nat.le_add_right _ _)).append hb

/-- A condition and a body, with a jump over the body and another one at its end, which may lead
on. -/
theorem bounded_branch {cond body : List Placed} (out : Instruction) (line lastLine extra : Nat)
    (hcond : Inward cond) (hbody : Inward body)
    (hto : ∀ j ∈ out.targets (cond.length + 2 + body.length),
      j ≤ cond.length + body.length + 4 + extra)
    (hback : ∀ offset, out = .loop offset → offset ≤ cond.length + 2 + body.length + 1) :
    Bounded (cond.length + body.length + 4 + extra)
      (cond ++ [⟨.jumpIfFalse (body.length + 2), line⟩, ⟨.pop, line⟩] ++ body ++
        [⟨out, lastLine⟩, ⟨.pop, lastLine⟩]) := by
  have hjump : Bounded (2 + (body.length + 2 + extra))
      [(⟨.jumpIfFalse (body.length + 2), line⟩ : Placed), ⟨.pop, line⟩] := by
    refine Bounded.snoc (a := [⟨.jumpIfFalse (body.length + 2), line⟩])
      (Bounded.snoc (a := []) (inward_nil.mono (Nat.zero_le _)) ?_ fun _ h => by cases h) ?_
      fun _ h => by cases h
    · simp only [Instruction.targets, List.mem_cons, List.not_mem_nil, or_false, List.length_nil]
      omega
    · simp only [Instruction.targets, List.mem_singleton, List.length_singleton]
      omega
  have hopen : Bounded (cond.length + (2 + (body.length + 2 + extra)))
      (cond ++ ([(⟨.jumpIfFalse (body.length + 2), line⟩ : Placed), ⟨.pop, line⟩] ++ body)) :=
    (hcond.mono (Nat.le_add_right _ _)).append (hjump.append (hbody.mono (by omega)))
  rw [show cond.length + (2 + (body.length + 2 + extra)) =
    cond.length + body.length + 4 + extra by omega,
    ← List.append_assoc] at hopen
  have hlength : (cond ++ [(⟨.jumpIfFalse (body.length + 2), line⟩ : Placed), ⟨.pop, line⟩] ++
    body).length =
      cond.length + 2 + body.length := by
    simp only [List.length_append, List.length_cons, List.length_nil]
  have hclosed := hopen.snoc (p := ⟨out, lastLine⟩) (hlength ▸ hto) (hlength ▸ hback)
  have hall := hclosed.snoc (p := ⟨.pop, lastLine⟩) (by
    rw [List.length_append, hlength]
    simp only [Instruction.targets, List.mem_singleton, List.length_singleton]
    omega) (fun _ h => by cases h)
  rwa [List.append_assoc] at hall

end

/-! ## The code of trees -/

theorem straight_singleton {p : Placed} (h : p.instruction.isJump = false) :
    ∀ q ∈ [p], q.instruction.isJump = false := by
  intro q hq
  obtain rfl := List.mem_singleton.mp hq
  exact h

/-- Code in which one instruction follows the other. -/
def Plain (code : List Placed) : Prop :=
  ∀ p ∈ code, p.instruction.isControl = false

theorem Plain.inward {code : List Placed} (h : Plain code) : Inward code :=
  inward_of_straight fun p hp => Instruction.isJump_of_not_isControl (h p hp)

theorem plain_nil : Plain [] :=
  fun _ hp => absurd hp List.not_mem_nil

theorem Plain.append {a b : List Placed} (ha : Plain a) (hb : Plain b) : Plain (a ++ b) :=
  fun p hp => (List.mem_append.mp hp).elim (ha p) (hb p)

theorem plain_singleton {p : Placed} (h : p.instruction.isControl = false) : Plain [p] := by
  intro q hq
  obtain rfl := List.mem_singleton.mp hq
  exact h

theorem plain_replicate (n : Nat) {p : Placed} (h : p.instruction.isControl = false) :
    Plain (List.replicate n p) := by
  intro q hq
  rw [List.eq_of_mem_replicate hq]
  exact h

/-- A declaration ends with an instruction that only goes on, or with none. -/
theorem Place.plain_definer (place : Place) (line : Nat) : Plain (placeOn line place.definer) := by
  cases place with
  | slot n => exact plain_nil
  | global index => exact plain_singleton rfl

/-- The instructions of an operator only go on. -/
theorem BinaryOp.plain_instructions (op : BinaryOp) (line : Nat) :
    Plain (placeOn line op.instructions) := by
  cases op with
  | add | subtract | multiply | divide | equal | less | greater => exact plain_singleton rfl
  | notEqual | lessEqual | greaterEqual =>
    exact Plain.append (a := [_]) (b := [_]) (plain_singleton rfl) (plain_singleton rfl)

mutual

/-- In an expression one instruction follows the other. -/
theorem Expr.plain_postorder (e : Expr) : Plain e.postorder := by
  cases e with
  | nil | int | float | string => exact plain_singleton rfl
  | bool b line => cases b <;> exact plain_singleton rfl
  | get v line =>
    obtain ⟨x, place⟩ := v
    cases place <;> exact plain_singleton rfl
  | set v value line =>
    obtain ⟨x, place⟩ := v
    cases place <;> exact value.plain_postorder.append (plain_singleton rfl)
  | member e m line => exact e.plain_postorder.append (plain_singleton rfl)
  | setMember v m value line =>
    obtain ⟨x, place⟩ := v
    cases place <;> exact value.plain_postorder.append (plain_singleton rfl)
  | unary op e line => cases op <;> exact e.plain_postorder.append (plain_singleton rfl)
  | binary op lhs rhs line =>
    exact (lhs.plain_postorder.append rhs.plain_postorder).append (op.plain_instructions line)
  | call callee arguments line =>
    exact (callee.plain_postorder.append (Expr.plain_postorderAll arguments)).append
      (plain_singleton rfl)
  | invalid size => exact plain_replicate size rfl

/-- The code of a list of expressions only goes on. -/
theorem Expr.plain_postorderAll (es : List Expr) : Plain (Expr.postorderAll es) := by
  cases es with
  | nil => exact plain_nil
  | cons e es => exact e.plain_postorder.append (Expr.plain_postorderAll es)

end

mutual

/-- The jumps of a statement stay in it. -/
theorem Stmt.inward_postorder (s : Stmt) : Inward s.postorder := by
  cases s with
  | expr e line | print e line | ret e line =>
    exact e.plain_postorder.inward.append (inward_of_straight (straight_singleton rfl))
  | declare v init line =>
    exact (init.plain_postorder.append (v.place.plain_definer line)).inward
  | function v parameters body lastLine index line =>
    exact ((plain_singleton rfl).append (v.place.plain_definer line)).inward
  | ifThen cond body line lastLine =>
    have h := bounded_branch (.jump 1) line lastLine 0
      cond.plain_postorder.inward body.inward_postorder (by simp [Instruction.targets]; omega)
      (fun _ h => by cases h)
    exact h.mono (by simp [Stmt.postorder]; omega)
  | loop cond body line lastLine =>
    have h := bounded_branch (.loop (cond.postorder.length + body.postorder.length + 3))
      line lastLine 0 cond.plain_postorder.inward body.inward_postorder
      (by simp [Instruction.targets]; omega)
      (fun offset h => by obtain rfl := Instruction.loop.inj h; omega)
    exact h.mono (by simp [Stmt.postorder]; omega)
  | ifElse cond body other line lastLine =>
    have h := bounded_branch (.jump (other.postorder.length + 1)) line lastLine
      other.postorder.length cond.plain_postorder.inward body.inward_postorder
      (by simp [Instruction.targets]; omega) (fun _ h => by cases h)
    exact ((h.mono (by simp; omega)).append other.inward_postorder).mono
      (by simp [Stmt.postorder]; omega)
  | yield line | stop line => exact inward_of_straight (straight_singleton rfl)
  | block body dropped line =>
    exact body.inward_postorder.append (plain_replicate dropped rfl).inward

/-- The code of a block keeps its jumps to itself, as the code of its statements does. -/
theorem Block.inward_postorder (b : Block) : Inward b.postorder := by
  cases b with
  | empty => exact inward_nil
  | append before last => exact before.inward_postorder.append last.inward_postorder

end

end EntityScript
