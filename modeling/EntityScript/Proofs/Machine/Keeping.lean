/-
# What instructions keep

Most instructions only take values from the stack and put values on it.  A relation between machines
that allows this (`Tolerant`) therefore holds between the machine before such an instruction and the
machine after it, and what remains to be shown of the relation concerns the instructions on globals
and functions, and those that move the cursor.
-/
import EntityScript.Machine.Run
import Mathlib.Tactic.Common

namespace EntityScript

/-- Whether an instruction works on the stack alone, and goes on with the next one. -/
def Instruction.isLocal : Instruction → Bool
  | .nil | .yes | .no | .pop | .getLocal _ | .setLocal _ | .getMember _ | .setLocalMember _ _ =>
    true
  | .equal | .greater | .less | .add | .subtract | .multiply | .divide | .not | .negate | .print
  | .yield => true
  | .literal _ | .defineGlobal _ | .getGlobal _ | .setGlobal _ | .setGlobalMember _ _ => false
  | .jump _ | .jumpIfFalse _ | .loop _ | .call _ | .ret | .stop => false

/-- Whether an instruction leaves the active calls alone, the cursor included. -/
def Instruction.isData : Instruction → Bool
  | .literal _ | .defineGlobal _ | .getGlobal _ | .setGlobal _ | .setGlobalMember _ _ => true
  | i => i.isLocal

/-- Whether an instruction may put an object into the heap. -/
def Instruction.isMaking : Instruction → Bool
  | .literal _ | .add => true
  | _ => false

/-- Whether a fault is neither about a global nor about a call of a host. -/
def Fault.isOrdinary : Fault → Bool
  | .undefinedVariable _ | .notResumable _ => false
  | .valueStackOverflow | .stackOverflow | .stackUnderflow | .arityMismatch _ _ | .notCallable _
  | .operand _ => true
  | .native _ _ | .output _ | .badLiteral _ | .ranOffEnd _ | .badJump _ | .noFrame
  | .danglingObject => true

namespace Exec

/-- A relation between machines that does not look at the stack within its limit, and a kind of
fault that has the faults of such machines in it. -/
structure Tolerant (R : Machine → Machine → Prop) (E : Fault → Prop) : Prop where
  refl : ∀ m, R m m
  trans : ∀ {a b c}, R a b → R b c → R a c
  stack : ∀ (m : Machine) (s : Array Value), s.size ≤ max m.stack.size stackLimit →
    R m { m with stack := s }
  fault : ∀ e : Fault, e.isOrdinary = true → E e

/-- A tolerant relation that does not look at texts on the heap either. -/
structure Relaxed (R : Machine → Machine → Prop) (E : Fault → Prop) :
    Prop extends Tolerant R E where
  text : ∀ (m : Machine) (t : String), R m { m with heap := (m.heap.intern t).2 }

/-- A computation leads to a machine in the given relation, and fails only in the given ways. -/
structure Keeps {α : Type} (R : Machine → Machine → Prop) (E : Fault → Prop) (x : Exec α) :
    Prop where
  ok : ∀ {m a m'}, x.run m = .ok a m' → R m m'
  error : ∀ {m e m'}, x.run m = .error e m' → R m m' ∧ E e

variable {α β : Type} {R : Machine → Machine → Prop} {E : Fault → Prop}

namespace Keeps

theorem pure (h : Tolerant R E) (a : α) : Keeps R E (pure a : Exec α) where
  ok {m _ m'} hrun := by
    obtain rfl : m = m' := (EStateM.Result.ok.inj hrun).2
    exact h.refl m
  error hrun := by cases hrun

/-- A fault of a kind that is allowed changes nothing. -/
theorem throw (h : Tolerant R E) {e : Fault} (he : E e) : Keeps R E (throw e : Exec α) where
  ok hrun := by cases hrun
  error {m _ m'} hrun := by
    obtain ⟨rfl, rfl⟩ := EStateM.Result.error.inj hrun
    exact ⟨h.refl m, he⟩

theorem get (h : Tolerant R E) : Keeps R E (get : Exec Machine) where
  ok {m _ m'} hrun := by
    obtain rfl : m = m' := (EStateM.Result.ok.inj hrun).2
    exact h.refl m
  error hrun := by cases hrun

theorem modify {f : Machine → Machine} (hf : ∀ m, R m (f m)) :
    Keeps R E (modify f : Exec Unit) where
  ok {m _ m'} hrun := by
    obtain rfl : f m = m' := (EStateM.Result.ok.inj hrun).2
    exact hf m
  error hrun := by cases hrun

theorem modifyGet {f : Machine → α × Machine} (hf : ∀ m, R m (f m).2) :
    Keeps R E (modifyGet f : Exec α) where
  ok {m _ m'} hrun := by
    obtain rfl : (f m).2 = m' := (EStateM.Result.ok.inj hrun).2
    exact hf m
  error hrun := by cases hrun

/-- Two computations one after the other, of which the second may not be reached. -/
theorem bind (h : Tolerant R E) {x : Exec α} {f : α → Exec β} (hx : Keeps R E x)
    (hf : ∀ a, Keeps R E (f a)) :
    Keeps R E (x >>= f) where
  ok {m b m'} hrun := by
    rw [EStateM.run_bind] at hrun
    cases hfirst : x.run m with
    | ok a m₁ =>
      rw [hfirst] at hrun
      exact h.trans (hx.ok hfirst) ((hf a).ok hrun)
    | error e m₁ =>
      rw [hfirst] at hrun
      cases hrun
  error {m e m'} hrun := by
    rw [EStateM.run_bind] at hrun
    cases hfirst : x.run m with
    | ok a m₁ =>
      rw [hfirst] at hrun
      obtain ⟨hr, he⟩ := (hf a).error hrun
      exact ⟨h.trans (hx.ok hfirst) hr, he⟩
    | error e' m₁ =>
      rw [hfirst] at hrun
      obtain ⟨rfl, rfl⟩ := EStateM.Result.error.inj hrun
      exact hx.error hfirst

end Keeps

/-! ## The parts of an instruction -/

section

variable (h : Tolerant R E)

include h

theorem keeps_frame : Keeps R E frame := by
  refine .bind h (.get h) fun m => ?_
  split
  · exact .pure h _
  · exact .throw h (h.fault _ rfl)

/-- What makes the stack no larger. -/
theorem keeps_shrink (f : Array Value → Array Value) (hf : ∀ s, (f s).size ≤ s.size) :
    Keeps R E (modify fun m => { m with stack := f m.stack } : Exec Unit) :=
  .modify fun m => h.stack m _ (Nat.le_trans (hf m.stack) (Nat.le_max_left _ _))

/-- A value is pushed only where the limit allows it. -/
theorem keeps_push (v : Value) : Keeps R E (push v) where
  ok {m _ m'} hrun := by
    rw [push, EStateM.run_bind, EStateM.run_get] at hrun
    dsimp only at hrun
    split at hrun
    · next hsize =>
      obtain ⟨-, rfl⟩ := EStateM.Result.ok.inj hrun
      refine h.stack m _ (Nat.le_trans ?_ (Nat.le_max_right _ _))
      rw [Array.size_push]
      exact hsize
    · cases hrun
  error {m e m'} hrun := by
    rw [push, EStateM.run_bind, EStateM.run_get] at hrun
    dsimp only at hrun
    split at hrun
    · cases hrun
    · obtain ⟨rfl, rfl⟩ := EStateM.Result.error.inj hrun
      exact ⟨h.refl m, h.fault _ rfl⟩

/-- Taking a value from the stack. -/
theorem keeps_pop : Keeps R E pop := by
  refine .bind h (.get h) fun m => ?_
  split
  · split
    · exact .throw h (h.fault _ rfl)
    · exact .bind h (keeps_shrink h Array.pop fun s => by simp) fun _ => .pure h _
  · exact .throw h (h.fault _ rfl)

theorem keeps_peek : Keeps R E peek := by
  refine .bind h (.get h) fun m => ?_
  split
  · exact .pure h _
  · exact .throw h (h.fault _ rfl)

theorem keeps_literal (index : Nat) : Keeps R E (literal index) := by
  refine .bind h (keeps_frame h) fun fr => ?_
  split
  · exact .pure h _
  · exact .throw h (h.fault _ rfl)

theorem keeps_nameAt (index : Nat) : Keeps R E (nameAt index) := by
  refine .bind h (keeps_literal h index) fun l => ?_
  split
  · exact .pure h _
  · exact .throw h (h.fault _ rfl)

theorem keeps_getSlot (slot : Nat) : Keeps R E (getSlot slot) := by
  refine .bind h (keeps_frame h) fun fr => .bind h (.get h) fun m => ?_
  split
  · exact .pure h _
  · exact .throw h (h.fault _ rfl)

/-- Setting a slot leaves a stack of the same size. -/
theorem keeps_putSlot (slot : Nat) (v : Value) : Keeps R E (putSlot slot v) :=
  .bind h (keeps_frame h) fun fr => keeps_shrink h (·.setIfInBounds (fr.base + slot) v) fun s => by
    simp

/-- An operand that is refused is an ordinary fault. -/
theorem keeps_operand (r : Except OperandError α) : Keeps R E (operand r) := by
  cases r with
  | ok a => exact .pure h a
  | error e => exact .throw h (h.fault _ rfl)

theorem keeps_unary (f : Value → Except OperandError Value) : Keeps R E (unary f) :=
  .bind h (keeps_pop h) fun _ => .bind h (keeps_operand h _) (keeps_push h)

theorem keeps_binary (f : Value → Value → Except OperandError Value) : Keeps R E (binary f) :=
  .bind h (keeps_pop h) fun _ => .bind h (keeps_pop h) fun _ =>
    .bind h (keeps_operand h _) (keeps_push h)

theorem keeps_truncate (size : Nat) : Keeps R E (truncate size) :=
  keeps_shrink h (·.take size) fun s => by
    rw [(by simp : (s.take size).size = min size s.size)]
    exact Nat.min_le_right _ _

/-- A native changes nothing but the stack, whatever it gives back. -/
theorem keeps_callNative (n : Native) (base arguments : Nat) :
    Keeps R E (callNative n base arguments) := by
  have happly : Keeps R E (applyNative n base) := by
    refine .bind h (.get h) fun m => ?_
    split
    · exact .bind h (keeps_truncate h _) fun _ => keeps_push h _
    · exact .throw h (h.fault _ rfl)
  rw [callNative]
  split
  · exact happly
  · split
    · exact .throw h (h.fault _ rfl)
    · exact happly

/-- Printing changes nothing on the machine. -/
theorem keeps_print (text : String) : Keeps R E (print text) := by
  refine .bind h (.get h) fun m => ?_
  split
  · exact .pure h _
  · exact .throw h (h.fault _ rfl)

/-- Executing an instruction that works on the stack alone, without objects. -/
theorem keeps_execute_stack {i : Instruction} (hi : i.isLocal = true)
    (hmaking : i.isMaking = false) :
    Keeps R E (execute i) := by
  cases i with
  | nil | yes | no => exact .bind h (keeps_push h _) fun _ => .pure h _
  | pop => exact .bind h (.bind h (keeps_pop h) fun _ => .pure h _) fun _ => .pure h _
  | getLocal slot =>
    exact .bind h (keeps_getSlot h slot) fun v => .bind h (keeps_push h v) fun _ => .pure h _
  | setLocal slot =>
    exact .bind h (keeps_peek h) fun v =>
      .bind h (.bind h (keeps_getSlot h slot) fun _ => .pure h _) fun _ =>
      .bind h (keeps_putSlot h slot v) fun _ => .pure h _
  | getMember | not | negate => exact .bind h (keeps_unary h _) fun _ => .pure h _
  | setLocalMember slot member =>
    exact .bind h (keeps_pop h) fun v => .bind h (keeps_getSlot h slot) fun _ =>
      .bind h (keeps_operand h _) fun r =>
      .bind h (keeps_putSlot h slot r.1) fun _ => .bind h (keeps_push h _) fun _ => .pure h _
  | equal =>
    exact .bind h (keeps_pop h) fun _ => .bind h (keeps_pop h) fun _ => .bind h (.get h) fun _ =>
      .bind h (keeps_push h _) fun _ => .pure h _
  | greater | less | subtract | multiply | divide =>
    exact .bind h (keeps_binary h _) fun _ => .pure h _
  | print => exact .bind h (keeps_pop h) fun v => .bind h (.get h) fun m => keeps_print h _
  | yield => exact .pure h _
  | add => cases hmaking
  | literal | defineGlobal | getGlobal | setGlobal | setGlobalMember | jump | jumpIfFalse | loop
  | call | ret | stop =>
    cases hi

end

/-! ## Texts -/

section

variable (h : Relaxed R E)

include h

theorem keeps_text (text : String) : Keeps R E (literalValue (.string text)) :=
  .modifyGet fun m => h.text m text

/-- A sum changes nothing but the stack and the texts on the heap. -/
theorem keeps_sum (a b : Value) : Keeps R E (sum a b) := by
  have t := h.toTolerant
  rw [sum.eq_def]
  split
  · refine .bind t (.get t) fun m => ?_
    split
    · exact keeps_text h _
    · exact .throw t (t.fault _ rfl)
  · exact keeps_operand t _

/-- Executing an instruction that works on the stack alone. -/
theorem keeps_execute {i : Instruction} (hi : i.isLocal = true) : Keeps R E (execute i) := by
  have t := h.toTolerant
  cases i with
  | add =>
    exact .bind t (keeps_pop t) fun b => .bind t (keeps_pop t) fun a =>
      .bind t (keeps_sum h a b) fun v =>
      .bind t (keeps_push t v) fun _ => .pure t _
  | literal => cases hi
  | _ => exact keeps_execute_stack t hi rfl

end

/-! ## Globals -/

/-- A tolerant relation that does not look at globals either, and a kind of fault that has those
about globals in it. -/
structure Liberal (R : Machine → Machine → Prop) (E : Fault → Prop) :
    Prop extends Tolerant R E where
  globals : ∀ (m : Machine) (g : Std.TreeMap String Value), R m { m with globals := g }
  undefined : ∀ x, E (.undefinedVariable x)

section

variable (h : Liberal R E)

include h

/-- Reading a global changes nothing, but may fail. -/
theorem keeps_getGlobal (name : String) : Keeps R E (getGlobal name) := by
  refine .bind h.toTolerant (.get h.toTolerant) fun m => ?_
  split
  · exact .pure h.toTolerant _
  · exact .throw h.toTolerant (h.undefined name)

theorem keeps_putGlobal (name : String) (v : Value) : Keeps R E (putGlobal name v) :=
  .modify fun m => h.globals m _

/-- Executing an instruction that works on the stack and on globals, without objects. -/
theorem keeps_execute_globals {i : Instruction} (hi : i.isData = true)
    (hmaking : i.isMaking = false) :
    Keeps R E (execute i) := by
  have t := h.toTolerant
  cases i with
  | defineGlobal index =>
    exact .bind t (keeps_nameAt t index) fun x => .bind t (keeps_pop t) fun v =>
      .bind t (keeps_putGlobal h x v) fun _ => .pure t _
  | getGlobal index =>
    exact .bind t (keeps_nameAt t index) fun x => .bind t (keeps_getGlobal h x) fun v =>
      .bind t (keeps_push t v) fun _ => .pure t _
  | setGlobal index =>
    exact .bind t (keeps_nameAt t index) fun x => .bind t (keeps_peek t) fun v =>
      .bind t (.bind t (keeps_getGlobal h x) fun _ => .pure t _) fun _ =>
      .bind t (keeps_putGlobal h x v) fun _ => .pure t _
  | setGlobalMember index member =>
    exact .bind t (keeps_nameAt t index) fun x => .bind t (keeps_pop t) fun v =>
      .bind t (keeps_getGlobal h x) fun _ =>
      .bind t (keeps_operand t _) fun r => .bind t (keeps_putGlobal h x r.1) fun _ =>
      .bind t (keeps_push t _) fun _ => .pure t _
  | literal => cases hmaking
  | _ => exact keeps_execute_stack t hi hmaking

end

/-! ## Objects -/

/-- A relation between machines that does not look at the globals and the objects either, and a kind
of fault that has those about globals in it. -/
structure Lenient (R : Machine → Machine → Prop) (E : Fault → Prop) : Prop extends Liberal R E where
  heap : ∀ (m : Machine) (h : Heap), R m { m with heap := h }

section

variable (h : Lenient R E)

include h

/-- A relation that does not look at objects does not look at texts. -/
theorem Lenient.relaxed : Relaxed R E :=
  ⟨h.toTolerant, fun m _ => h.heap m _⟩

theorem keeps_literalValue (l : Literal) : Keeps R E (literalValue l) := by
  cases l with
  | int | float => exact .pure h.toTolerant _
  | string | function => exact .modifyGet fun m => h.heap m _

/-- Executing an instruction that makes objects and works on globals. -/
theorem keeps_execute_data {i : Instruction} (hi : i.isData = true) : Keeps R E (execute i) := by
  have t := h.toTolerant
  cases i with
  | literal index =>
    exact .bind t (keeps_literal t index) fun l => .bind t (keeps_literalValue h l) fun v =>
      .bind t (keeps_push t v) fun _ => .pure t _
  | add => exact keeps_execute h.relaxed rfl
  | _ => exact keeps_execute_globals h.toLiberal hi rfl

end

/-! ## Calls -/

/-- A relation between machines that looks neither at the calls and their stack nor at the
globals. -/
structure Detached (R : Machine → Machine → Prop) : Prop where
  refl : ∀ m, R m m
  trans : ∀ {a b c}, R a b → R b c → R a c
  calls : ∀ (m : Machine) (fs : List Frame) (s : Array Value),
    R m { m with frames := fs, stack := s }
  globals : ∀ (m : Machine) (g : Std.TreeMap String Value), R m { m with globals := g }

/-- A relation that looks at neither calls nor globals allows every fault. -/
theorem Detached.liberal (h : Detached R) : Liberal R fun _ => True :=
  ⟨⟨h.refl, h.trans, fun m s _ => h.calls m m.frames s, fun _ _ => trivial⟩, h.globals,
    fun _ => trivial⟩

section

variable (h : Detached R)

include h

/-- Moving the cursor. -/
theorem keeps_goto (cursor : Nat) : Keeps R (fun _ => True) (goto cursor) := by
  refine .modify fun m => ?_
  split
  · exact h.calls m _ m.stack
  · exact h.refl m

theorem keeps_fetch : Keeps R (fun _ => True) fetch := by
  have t := h.liberal.toTolerant
  refine .bind t (keeps_frame t) fun fr => ?_
  split
  · exact .bind t (keeps_goto h _) fun _ => .pure t _
  · exact .throw t trivial

/-- Entering a call, or failing to. -/
theorem keeps_enter (f : Function) (base arguments : Nat) :
    Keeps R (fun _ => True) (enter f base arguments) := by
  have t := h.liberal.toTolerant
  rw [enter]
  split
  · exact .throw t trivial
  · refine .bind t (.get t) fun m => ?_
    split
    · exact .throw t trivial
    · exact .modify fun m => h.calls m _ m.stack

/-- A call of whatever lies below the arguments. -/
theorem keeps_call (arguments : Nat) : Keeps R (fun _ => True) (call arguments) := by
  have t := h.liberal.toTolerant
  refine .bind t (.get t) fun m => ?_
  split
  · exact .throw t trivial
  · dsimp only
    split
    · split
      · exact keeps_enter h _ _ _
      · exact keeps_callNative t _ _ _
      · exact .throw t trivial
      · exact .throw t trivial
    · exact .throw t trivial
    · exact .throw t trivial

/-- Ending a call. -/
theorem keeps_leave : Keeps R (fun _ => True) leave := by
  have t := h.liberal.toTolerant
  refine .bind t (keeps_pop t) fun v => .bind t (.get t) fun m => ?_
  split
  · refine .bind t (.modify fun m => h.calls m _ m.stack) fun _ =>
      .bind t (keeps_truncate t _) fun _ => ?_
    split
    · exact .pure t _
    · exact .bind t (keeps_push t _) fun _ => .pure t _
  · exact .throw t trivial

/-- Executing an instruction that makes no objects. -/
theorem keeps_execute_calls {i : Instruction} (hmaking : i.isMaking = false) :
    Keeps R (fun _ => True) (execute i) := by
  have t := h.liberal.toTolerant
  cases i with
  | jump offset =>
    exact .bind t (keeps_frame t) fun _ => .bind t (keeps_goto h _) fun _ => .pure t _
  | jumpIfFalse offset =>
    refine .bind t (keeps_peek t) fun v => ?_
    dsimp only
    split
    · exact .bind t (keeps_frame t) fun _ => .bind t (keeps_goto h _) fun _ => .pure t _
    · exact .pure t _
  | loop offset =>
    refine .bind t (keeps_frame t) fun fr => ?_
    split
    · exact .throw t trivial
    · exact .bind t (keeps_goto h _) fun _ => .pure t _
  | call arguments => exact .bind t (keeps_call h arguments) fun _ => .pure t _
  | ret => exact keeps_leave h
  | stop => exact .bind t (.modify fun m => h.calls m _ _) fun _ => .pure t _
  | literal | add => cases hmaking
  | _ => exact keeps_execute_globals h.liberal rfl rfl

end

end Exec

end EntityScript
