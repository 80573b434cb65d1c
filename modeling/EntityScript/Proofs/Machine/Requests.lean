/-
# What a step asks of the heap

Two instructions may need an object: the one that takes a literal, and the one that adds, if both of
its operands are strings.  They ask the heap for the object, which makes it only if it is not there.
No other instruction touches the heap, and an instruction that fails for another reason has asked
nevertheless (`Exec.heap_step`).
-/
import EntityScript.Proofs.Machine.Keeping
import EntityScript.Proofs.Machine.Lockstep

namespace EntityScript

/-- The object that a literal stands for. -/
def Literal.object? : Literal → Option Object
  | .string text => some (.string text)
  | .function f => some (.function f)
  | .int _ => none
  | .float _ => none

namespace Heap

/-- The heap after an object has been asked for, if any. -/
def request (h : Heap) : Option Object → Heap
  | some object => (h.alloc object).2
  | none => h

/-- The text of two strings, one after the other. -/
def join? (h : Heap) : Value → Value → Option String
  | .object x, .object y => do
    let s ← (h.get? x).bind Object.string?
    let t ← (h.get? y).bind Object.string?
    return s ++ t
  | _, _ => none

end Heap

namespace Exec

/-- The next instruction and the values that it finds on top, the right one first. -/
def operands : Exec (Instruction × Value × Value) := do
  return (← fetch, ← pop, ← pop)

/-- The machine that a computation leaves behind, whether or not it fails. -/
def leaves {α : Type} (x : Exec α) (m : Machine) : Machine :=
  match x.run m with
  | .ok _ k => k
  | .error _ k => k

end Exec

namespace Machine

/-- The text that the next instruction makes of two strings. -/
def joins? (m : Machine) : Option String :=
  match Exec.operands.run m with
  | .ok (.add, b, a) k => k.heap.join? a b
  | _ => none

/-- The object that the next instruction asks for. -/
def asks? (m : Machine) : Option Object :=
  match m.frames with
  | [] => none
  | fr :: _ =>
    match fr.function.chunk.instruction? fr.cursor with
    | some (.literal index) => (fr.function.chunk.literal? index).bind Literal.object?
    | some .add => m.joins?.map .string
    | _ => none

end Machine

namespace Exec

variable {α β : Type} {R : Machine → Machine → Prop} {E : Fault → Prop} {x : Exec α}
  {f : α → Exec β} {m k : Machine} {a : α} {e : Fault}

/-! ## What is left behind -/

theorem leaves_ok (h : x.run m = .ok a k) : leaves x m = k := by
  rw [leaves, h]

theorem leaves_error (h : x.run m = .error e k) : leaves x m = k := by
  rw [leaves, h]

/-- Of two computations the second one leaves the machine, if it is reached. -/
theorem leaves_bind_ok (h : x.run m = .ok a k) : leaves (x >>= f) m = leaves (f a) k := by
  rw [leaves, EStateM.run_bind, h, leaves]

theorem leaves_bind_error (h : x.run m = .error e k) : leaves (x >>= f) m = k := by
  rw [leaves, EStateM.run_bind, h]

/-- What a computation keeps it keeps whether or not it fails. -/
theorem Keeps.leaves (h : Keeps R E x) (m : Machine) : R m (leaves x m) := by
  rw [Exec.leaves]
  split
  · next hrun => exact h.ok hrun
  · next hrun => exact (h.error hrun).1

/-- Whether the heap is the same depends on neither calls nor globals. -/
theorem detached_heap : Detached fun m m' => m'.heap = m.heap where
  refl _ := rfl
  trans h k := k.trans h
  calls _ _ _ := rfl
  globals _ _ := rfl

/-! ## Asking -/

/-- What is done with a value on the stack leaves the heap alone. -/
theorem heap_push (v : Value) (m : Machine) :
    (leaves (do push v; return Signal.next) m).heap = m.heap := by
  have t := detached_heap.liberal.toTolerant
  exact (Keeps.bind t (keeps_push t v) fun _ => .pure t Signal.next).leaves m

/-- A literal is asked for. -/
theorem heap_literal (fr : Frame) {rest : List Frame} (hk : k.frames = fr :: rest) (index : Nat) :
    (leaves (execute (.literal index)) k).heap =
      k.heap.request ((fr.function.chunk.literal? index).bind Literal.object?) := by
  rw [execute]
  cases hl : fr.function.chunk.literal? index with
  | none =>
    have hrun : (literal index).run k = .error (.badLiteral index) k := by
      rw [literal, EStateM.run_bind, run_frame_cons hk]
      simp only [hl]
      rfl
    rw [leaves_bind_error hrun]
    rfl
  | some l =>
    have hrun : (literal index).run k = .ok l k := by
      rw [literal, EStateM.run_bind, run_frame_cons hk]
      simp only [hl]
      rfl
    obtain ⟨v, hv⟩ : ∃ v, (literalValue l).run k =
      .ok v { k with heap := k.heap.request l.object? } := by
      cases l <;> exact ⟨_, rfl⟩
    rw [leaves_bind_ok hrun, leaves_bind_ok hv, heap_push]
    rfl

/-- Two objects are joined if both are texts, and cannot be added if not. -/
theorem run_sum_objects (x y : Ref) (k : Machine) : (sum (.object x) (.object y)).run k =
    match k.heap.join? (.object x) (.object y) with
    | some text => (literalValue (.string text)).run k
    | none => .error (.operand (.binaryMismatch .add .object .object)) k := by
  rw [sum, EStateM.run_bind, EStateM.run_get, Heap.join?]
  dsimp only
  cases (k.heap.get? x).bind Object.string? with
  | none => rfl
  | some s =>
    cases (k.heap.get? y).bind Object.string? with
    | none => rfl
    | some t => rfl

/-- The text of two strings is asked for. -/
theorem heap_sum (a b : Value) (k : Machine) :
    (leaves (do push (← sum a b); return Signal.next) k).heap =
      k.heap.request ((k.heap.join? a b).map .string) := by
  have t := detached_heap.liberal.toTolerant
  by_cases hobjects : ∃ x y, a = .object x ∧ b = .object y
  · obtain ⟨x, y, rfl, rfl⟩ := hobjects
    have hrun := run_sum_objects x y k
    cases hjoin : k.heap.join? (.object x) (.object y) with
    | none =>
      rw [hjoin] at hrun
      rw [leaves_bind_error hrun]
      rfl
    | some text =>
      rw [hjoin] at hrun
      have hmade : (sum (.object x) (.object y)).run k = .ok (.object (k.heap.intern text).1)
          { k with heap := (k.heap.intern text).2 } := hrun
      rw [leaves_bind_ok hmade, heap_push]
      rfl
  · have hjoin : k.heap.join? a b = none := by
      rw [Heap.join?.eq_def]
      split
      · exact absurd ⟨_, _, rfl, rfl⟩ hobjects
      · rfl
    have hsum : sum a b = operand (a.add b) := by
      rw [sum.eq_def]
      split
      · exact absurd ⟨_, _, rfl, rfl⟩ hobjects
      · rfl
    rw [hjoin, hsum]
    exact (Keeps.bind t (keeps_operand t _) fun v => .bind t (keeps_push t v) fun _ =>
      .pure t _).leaves k

/-- Adding asks for the text of its operands, if both are strings. -/
theorem heap_add (h : fetch.run m = .ok .add k) (hheap : k.heap = m.heap) :
    (leaves (execute .add) k).heap = m.heap.request (m.joins?.map .string) := by
  have t := detached_heap.liberal.toTolerant
  have hoperands : operands.run m =
    (do return (.add, ← pop, ← pop) : Exec (Instruction × Value × Value)).run k := by
    rw [operands, EStateM.run_bind, h]
  rw [execute, Machine.joins?, hoperands, EStateM.run_bind]
  cases hb : pop.run k with
  | error e k₁ =>
    rw [leaves_bind_error hb, ((keeps_pop t).error hb).1, hheap]
    rfl
  | ok b k₁ =>
    rw [leaves_bind_ok hb]
    dsimp only
    rw [EStateM.run_bind]
    cases ha : pop.run k₁ with
    | error e k₂ =>
      rw [leaves_bind_error ha, ((keeps_pop t).error ha).1, (keeps_pop t).ok hb, hheap]
      rfl
    | ok a k₂ =>
      have hsame : k₂.heap = m.heap := ((keeps_pop t).ok ha).trans
        (((keeps_pop t).ok hb).trans hheap)
      rw [leaves_bind_ok ha, heap_sum]
      show _ = m.heap.request ((k₂.heap.join? a b).map .string)
      rw [hsame]

/-- A step leaves the heap as it is, but for the object that it asks for. -/
theorem heap_step (m : Machine) : (leaves step m).heap = m.heap.request m.asks? := by
  rw [Machine.asks?]
  cases hm : m.frames with
  | nil =>
    rw [leaves_error (run_step_idle hm)]
    rfl
  | cons fr rest =>
    dsimp only
    cases hi : fr.function.chunk.instruction? fr.cursor with
    | none =>
      rw [leaves_error (run_step_end hm hi)]
      rfl
    | some instruction =>
      have hfetch := run_fetch hm hi
      rw [step, leaves_bind_ok hfetch]
      cases instruction with
      | literal index => exact heap_literal { fr with cursor := fr.cursor + 1 } rfl index
      | add => exact heap_add hfetch rfl
      | _ => exact (keeps_execute_calls detached_heap rfl).leaves _

end Exec

namespace Machine

/-- An object that is asked for is a text that is made of two strings, or a literal of the innermost
function. -/
theorem asks?_cases {m : Machine} {object : Object} (h : m.asks? = some object) :
    (∃ text, object = .string text ∧ m.joins? = some text) ∨ ∃ fr ∈ m.frames,
      (∃ text, object = .string text ∧ .string text ∈ fr.function.chunk.literals) ∨
      ∃ f, object = .function f ∧ .function f ∈ fr.function.chunk.literals := by
  rw [asks?] at h
  split at h
  · cases h
  · next fr rest hframes =>
    split at h
    · next index _ =>
      obtain ⟨l, hl, hobject⟩ := Option.bind_eq_some_iff.mp h
      refine .inr ⟨fr, hframes ▸ List.mem_cons_self, ?_⟩
      have hmem := List.mem_of_getElem? hl
      cases l with
      | string text => exact .inl ⟨text, (Option.some.inj hobject).symm, hmem⟩
      | function f => exact .inr ⟨f, (Option.some.inj hobject).symm, hmem⟩
      | int | float => cases hobject
    · obtain ⟨text, htext, rfl⟩ := Option.map_eq_some_iff.mp h
      exact .inl ⟨text, rfl, htext⟩
    · cases h

/-- An instruction that takes a text among the literals asks for it. -/
theorem asks?_literal {m : Machine} {fr : Frame} {rest : List Frame} {index : Nat} {text : String}
    (hframes : m.frames = fr :: rest)
    (hi : fr.function.chunk.instruction? fr.cursor = some (.literal index))
    (hl : fr.function.chunk.literal? index = some (.string text)) :
    m.asks? = some (.string text) := by
  rw [asks?, hframes]
  dsimp only
  rw [hi]
  dsimp only
  rw [hl]
  rfl

end Machine

end EntityScript
