/-
# Arithmetic in a machine

The arithmetic instructions take two values from the stack and leave what the table of arithmetic
says.  Only the one that adds has a rule of its own: it joins two strings, which the table does not
know.

With this `arithmetic_exact_and_typed` puts together everything that arithmetic can come to, natives
included.
-/
import EntityScript.Proofs.Machine.Instructions
import EntityScript.Proofs.Machine.Requests
import EntityScript.Proofs.Value.Arithmetic

namespace EntityScript

/-- The instruction for an operator. -/
def Arithmetic.instruction : Arithmetic → Instruction
  | .add => .add
  | .subtract => .subtract
  | .multiply => .multiply
  | .divide => .divide

/-- The sum of two values is the text of two strings, or what the table says. -/
theorem Heap.sum_eq (h : Heap) (a b : Value) : h.sum a b =
    match h.join? a b with
    | some text => .ok (.object (h.intern text).1, (h.intern text).2)
    | none => (a.add b).map (·, h) := by
  cases a with
  | object x =>
    cases b with
    | object y =>
      rw [Heap.sum, join?]
      cases (h.get? x).bind Object.string? with
      | none => rfl
      | some s =>
        cases (h.get? y).bind Object.string? with
        | none => rfl
        | some t => rfl
    | nil | bool | int | float | vector | point => rfl
  | nil | bool | int | float | vector | point => cases b <;> rfl

namespace Exec

variable {m : Machine} {fr : Frame} {rest : List Frame} {s : List Value} {a b : Value}
  {op : Arithmetic}

/-- The two values on top of the stack are taken. -/
theorem run_pop_pop {β : Type} (f : Value → Value → Exec β) (h : fr.base < s.length) :
    (do let b ← pop; let a ← pop; f a b).run (m.on (fr :: rest) (s ++ [a, b])) =
      (f a b).run (m.on (fr :: rest) s) := by
  have hb : pop.run (m.on (fr :: rest) (s ++ [a, b])) = .ok b (m.on (fr :: rest) (s ++ [a])) := by
    rw [(by simp : s ++ [a, b] = s ++ [a] ++ [b])]
    exact run_pop (by rw [List.length_append]; omega)
  rw [EStateM.run_bind, hb]
  dsimp only
  rw [EStateM.run_bind, run_pop h]

/-- A result is pushed. -/
theorem run_push_next {v : Value} (hlimit : s.length < stackLimit) :
    (do push v; return Signal.next).run (m.on (fr :: rest) s) =
      .ok .next (m.on (fr :: rest) (s ++ [v])) := by
  rw [EStateM.run_bind, run_push hlimit]
  rfl

/-- An instruction that applies an operator. -/
theorem run_binary {f : Value → Value → Except OperandError Value} (h : fr.base < s.length)
    (hlimit : s.length < stackLimit) :
    (do binary f; return Signal.next).run (m.on (fr :: rest) (s ++ [a, b])) =
      match f a b with
      | .ok v => .ok .next (m.on (fr :: rest) (s ++ [v]))
      | .error e => .error (.operand e) (m.on (fr :: rest) s) := by
  rw [EStateM.run_bind, binary, run_pop_pop (fun a b => do push (← operand (f a b))) h,
    EStateM.run_bind]
  cases f a b with
  | ok v =>
    rw [run_operand_ok]
    dsimp only
    rw [run_push hlimit]
    rfl
  | error e => rfl

/-- The instruction that adds. -/
theorem run_add (h : fr.base < s.length) (hlimit : s.length < stackLimit) :
    (execute .add).run (m.on (fr :: rest) (s ++ [a, b])) =
      match m.heap.join? a b with
      | some text => .ok .next ({ m with heap := (m.heap.intern text).2 }.on (fr :: rest)
          (s ++ [Value.object (m.heap.intern text).1]))
      | none =>
        match a.add b with
        | .ok v => .ok .next (m.on (fr :: rest) (s ++ [v]))
        | .error e => .error (.operand e) (m.on (fr :: rest) s) := by
  have hsum : (Exec.sum a b).run (m.on (fr :: rest) s) = _ := run_sum
  rw [m.heap.sum_eq a b] at hsum
  rw [execute, run_pop_pop (fun a b => do push (← Exec.sum a b); return Signal.next) h,
    EStateM.run_bind, hsum]
  cases m.heap.join? a b with
  | some text => exact run_push_next hlimit
  | none =>
    cases a.add b with
    | ok v => exact run_push_next hlimit
    | error e => rfl

/-- The other instructions. -/
theorem run_arithmetic (h : fr.base < s.length) (hlimit : s.length < stackLimit) (hop : op ≠ .add) :
    (execute op.instruction).run (m.on (fr :: rest) (s ++ [a, b])) =
      match op.apply a b with
      | .ok v => .ok .next (m.on (fr :: rest) (s ++ [v]))
      | .error e => .error (.operand e) (m.on (fr :: rest) s) := by
  cases op with
  | add => exact absurd rfl hop
  | subtract | multiply | divide => exact run_binary h hlimit

end Exec

/-- Arithmetic is exact and typed.

Two integers give the integer that is the mathematical result if sixty-four bits hold it, and an
overflow otherwise; only a division by the integer zero is an error of its own.  It is the same with
the opposite and with the magnitude of an integer.  Two numbers with a double among them give the
double of both as doubles.  All other pairs of kinds give a result only by the operations of the
plane, an error of its own only where a vector is divided by a zero, and an error with both kinds
otherwise.  The instructions follow this table, but for the addition of two strings, which makes
their text a string. -/
theorem arithmetic_exact_and_typed :
    (∀ (op : Arithmetic) (m n : Int64),
      (op.apply (.int m) (.int n) = .error .divisionByZero ↔ op = .divide ∧ n = 0) ∧
      ∀ z, op.result? m.toInt n.toInt = some z →
        Exact z (.integerOverflow op.operator) (op.apply (.int m) (.int n))) ∧
    (∀ n : Int64, Exact (-n.toInt) (.integerOverflow .negate) (Value.negate (.int n))) ∧
    (∃ native, Host.builtins.natives["abs"]? = some native ∧ native.arity = some 1 ∧
      ∀ n : Int64, Exact n.toInt.natAbs "integer overflow" (native.call [.int n])) ∧
    (∀ (op : Arithmetic) (a b : Value) (x y : Float), a.toFloat? = some x → b.toFloat? = some y →
      a.tag = .float ∨ b.tag = .float → op.apply a b = .ok (.float (op.onFloats x y))) ∧
    (∀ (op : Arithmetic) (a b : Value), (a.isNumber && b.isNumber) = false →
      (∀ v, op.apply a b = .ok v ↔ op.Plane a b v) ∧
      (op.apply a b = .error .divisionByZero ↔ op.Collapses a b) ∧
      ((∀ v, ¬ op.Plane a b v) → ¬ op.Collapses a b →
        op.apply a b = .error (.binaryMismatch op.operator a.tag b.tag))) ∧
    ∀ (op : Arithmetic) (m : Machine) (fr : Frame) (rest : List Frame) (s : List Value)
      (a b : Value),
      fr.base < s.length → s.length < stackLimit →
      (Exec.execute op.instruction).run (m.on (fr :: rest) (s ++ [a, b])) =
        match if op = .add then m.heap.join? a b else none with
        | some text => .ok .next ({ m with heap := (m.heap.intern text).2 }.on (fr :: rest)
            (s ++ [Value.object (m.heap.intern text).1]))
        | none =>
          match op.apply a b with
          | .ok v => .ok .next (m.on (fr :: rest) (s ++ [v]))
          | .error e => .error (.operand e) (m.on (fr :: rest) s) := by
  refine ⟨fun op m n => ⟨Arithmetic.apply_int_divisionByZero, fun z => Arithmetic.apply_int_exact⟩,
    negate_int,
    ⟨⟨"abs", some 1, 0, Builtin.abs⟩, abs_mem_builtins, rfl, fun n => ?_⟩, fun op a b x y =>
    Arithmetic.apply_float,
    fun op a b hnumbers => ⟨fun v => Arithmetic.apply_ok_iff hnumbers,
      Arithmetic.apply_divisionByZero_iff hnumbers, Arithmetic.apply_other hnumbers⟩,
    fun op m fr rest s a b h hlimit => ?_⟩
  · dsimp only
    exact abs_int n
  · by_cases hop : op = .add
    · subst hop
      exact Exec.run_add h hlimit
    · rw [if_neg hop]
      exact Exec.run_arithmetic h hlimit hop

/-- A machine with the strings `a` and `b` on its stack, in a call of a function without code. -/
def Machine.joining : Machine :=
  { new .empty with heap := ((Heap.empty.intern "a").2.intern "b").2 }.on
    [⟨⟨⟨0, 0⟩, none, 0, .empty⟩, 0, 0⟩] [.nil, .object ⟨0⟩, .object ⟨1⟩]

/-- The limits of integers, kinds that do not go together, and two strings. -/
theorem arithmetic_exact_and_typed_limits :
    Arithmetic.divide.apply (.int Int64.minValue) (.int (-1)) = .error (.integerOverflow .divide) ∧
    Arithmetic.divide.apply (.int (-7)) (.int 2) = .ok (.int (-3)) ∧
    Arithmetic.divide.apply (.int 1) (.int 0) = .error .divisionByZero ∧
    Value.negate (.int Int64.minValue) = .error (.integerOverflow .negate) ∧
    Arithmetic.multiply.apply (.int 2) (.float 0.5) = .ok (.float (Float.ofInt 2 * 0.5)) ∧
    Arithmetic.divide.apply (.vector (.polar 1 0)) (.int 0) = .error .divisionByZero ∧
    Arithmetic.add.apply (.vector (.polar 1 0)) (.point ⟨0, 0⟩) =
      .error (.binaryMismatch .add .vector .point) ∧
    (Exec.execute .add).run .joining =
      .ok .next
      ({ Machine.joining with heap := (Machine.joining.heap.intern "ab").2 }.on
      Machine.joining.frames
        [.nil, .object ⟨2⟩]) := by
  obtain ⟨hints, hnegate, -, hfloats, hkinds, hruns⟩ := arithmetic_exact_and_typed
  refine ⟨((hints .divide Int64.minValue (-1)).2 0x8000000000000000 (by decide)).2 (by decide),
    (((hints .divide (-7) 2).2 (-3) (by decide)).1 (-3)).mpr (by decide),
    (hints .divide 1 0).1.mpr ⟨rfl, rfl⟩, (hnegate Int64.minValue).2 (by decide),
    hfloats .multiply _ _ _ _ rfl rfl (.inr rfl),
    (hkinds .divide _ _ rfl).2.1.mpr ⟨rfl, rfl, _, rfl, by decide +kernel⟩,
    (hkinds .add _ _ rfl).2.2 (fun v h => by cases h) (fun h => by cases h.1), ?_⟩
  exact hruns .add .joining _ [] [.nil] (.object ⟨0⟩) (.object ⟨1⟩) (by decide) (by decide)

end EntityScript
