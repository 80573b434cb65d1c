/-
# What each instruction does

One statement for each instruction, about a machine whose cursor has already moved past it.
Together they say everything that a step can do: what it takes from the stack and leaves there, how
globals and heap change, and with which fault it stops.
-/
import EntityScript.Proofs.Machine.Primitives

namespace EntityScript

namespace Heap

/-- The value of a literal, and the heap afterwards. -/
def literal (h : Heap) : Literal → Value × Heap
  | .int n => (.int n, h)
  | .float bits => (.float (Float.ofBits bits), h)
  | .string text => (.object (h.intern text).1, (h.intern text).2)
  | .function f => (.object (h.function f).1, (h.function f).2)

/-- The sum of two values, strings included, and the heap afterwards. -/
def sum (h : Heap) : Value → Value → Except OperandError (Value × Heap)
  | .object x, .object y =>
    match (h.get? x).bind Object.string?, (h.get? y).bind Object.string? with
    | some s, some t => .ok (.object (h.intern (s ++ t)).1, (h.intern (s ++ t)).2)
    | _, _ => .error (.binaryMismatch .add .object .object)
  | a, b => (a.add b).map (·, h)

end Heap

/-- What a native gives for arguments, whose number is looked at first. -/
def Native.result (n : Native) (arguments : List Value) : Except Fault Value :=
  match n.arity with
  | none => (n.call arguments).mapError (.native n.name)
  | some expected =>
    if expected ≠ arguments.length then .error (.arityMismatch expected arguments.length)
    else (n.call arguments).mapError (.native n.name)

/-- A native either refuses or gives what it computes from the arguments. -/
theorem Native.result_cases (n : Native) (arguments : List Value) :
    (∃ expected, n.result arguments = .error (.arityMismatch expected arguments.length)) ∨
      (∃ message, n.result arguments = .error (.native n.name message)) ∨
      ∃ v, n.result arguments = .ok v ∧ n.call arguments = .ok v := by
  have hcall : (∃ message, (n.call arguments).mapError (Fault.native n.name) =
      .error (.native n.name message)) ∨
      ∃ v, (n.call arguments).mapError (Fault.native n.name) = .ok v ∧
      n.call arguments = .ok v := by
    cases n.call arguments with
    | ok v => exact .inr ⟨v, rfl, rfl⟩
    | error message => exact .inl ⟨message, rfl⟩
  unfold Native.result
  split
  · exact .inr hcall
  · next expected _ =>
    split
    · exact .inl ⟨expected, rfl⟩
    · exact .inr hcall

namespace Exec

variable {m : Machine} {fr : Frame} {rest : List Frame} {s : List Value} {a b v : Value}

/-! ## Literals and variables -/

/-- The value of a literal, with the object that is made for it if it needs one. -/
theorem run_literalValue (l : Literal) :
    (literalValue l).run (m.on (fr :: rest) s) = .ok (m.heap.literal l).1
      ({ m with heap := (m.heap.literal l).2 }.on (fr :: rest) s) := by
  cases l <;> rfl

theorem run_literal {index : Nat} {l : Literal} (h : fr.function.chunk.literal? index = some l) :
    (literal index).run (m.on (fr :: rest) s) = .ok l (m.on (fr :: rest) s) := by
  have hframe : frame.run (m.on (fr :: rest) s) = .ok fr (m.on (fr :: rest) s) := rfl
  rw [literal, EStateM.run_bind, hframe]
  simp only [h]
  rfl

theorem run_nameAt {index : Nat} {name : String}
    (h : fr.function.chunk.literal? index = some (.string name)) :
    (nameAt index).run (m.on (fr :: rest) s) = .ok name (m.on (fr :: rest) s) := by
  rw [nameAt, EStateM.run_bind, run_literal h]
  rfl

theorem run_getGlobal {name : String} (h : m.globals[name]? = some v) :
    (getGlobal name).run m = .ok v m := by
  rw [getGlobal, EStateM.run_bind, EStateM.run_get]
  simp only [h]
  rfl

/-- A global that is not defined cannot be read. -/
theorem run_getGlobal_none {name : String} (h : m.globals[name]? = none) :
    (getGlobal name).run m = .error (.undefinedVariable name) m := by
  rw [getGlobal, EStateM.run_bind, EStateM.run_get]
  simp only [h]
  rfl

/-- The value of a literal is put on the stack. -/
theorem meets_literal {index : Nat} {l : Literal} (hl : fr.function.chunk.literal? index = some l)
    (hheap : m.heap.Extends (m.heap.literal l).2) :
    Meets (execute (.literal index)) (m.on (fr :: rest) s)
      (.ok (.next, { m with heap := (m.heap.literal l).2 }.on (fr :: rest)
        (s ++ [(m.heap.literal l).1]))) := by
  refine .bind (run_literal hl) (.refl _)
    (.bind (run_literalValue l) ⟨rfl, rfl, hheap, rfl, .refl _⟩ ?_)
  exact meets_push.andThen rfl

theorem meets_nil : Meets (execute .nil) (m.on (fr :: rest) s)
    (.ok (.next, m.on (fr :: rest) (s ++ [.nil]))) :=
  meets_push.andThen rfl

theorem meets_yes : Meets (execute .yes) (m.on (fr :: rest) s)
    (.ok (.next, m.on (fr :: rest) (s ++ [.bool true]))) :=
  meets_push.andThen rfl

theorem meets_no : Meets (execute .no) (m.on (fr :: rest) s)
    (.ok (.next, m.on (fr :: rest) (s ++ [.bool false]))) :=
  meets_push.andThen rfl

theorem meets_pop (h : fr.base < s.length) : Meets (execute .pop) (m.on (fr :: rest) (s ++ [v]))
    (.ok (.next, m.on (fr :: rest) s)) :=
  .bind (run_discard (run_pop h)) (Machine.spares_pop ..) (.ok rfl (.refl _))

theorem meets_defineGlobal {index : Nat} {name : String}
    (hl : fr.function.chunk.literal? index = some (.string name)) (h : fr.base < s.length) :
    Meets (execute (.defineGlobal index)) (m.on (fr :: rest) (s ++ [v]))
      (.ok (.next, { m with globals := m.globals.insert name v }.on (fr :: rest) s)) := by
  refine .bind (run_nameAt hl) (.refl _)
    (.bind (run_pop h) (Machine.spares_pop ..) (.ok ?_ (.refl _)))
  rfl

/-- A global is put on the stack, or it is undefined. -/
theorem meets_getGlobal {index : Nat} {name : String}
    (hl : fr.function.chunk.literal? index = some (.string name)) :
    Meets (execute (.getGlobal index)) (m.on (fr :: rest) s)
      (match m.globals[name]? with
        | some v => .ok (.next, m.on (fr :: rest) (s ++ [v]))
        | none => .error (.undefinedVariable name)) := by
  refine .bind (run_nameAt hl) (.refl _) ?_
  cases hg : m.globals[name]? with
  | some v => exact .bind (run_getGlobal hg) (.refl _) (meets_push.andThen rfl)
  | none => exact Meets.fails (.error (run_getGlobal_none hg) (.refl _))

/-- A global takes the topmost value, which stays on the stack; one that is undefined stays so. -/
theorem meets_setGlobal {index : Nat} {name : String}
    (hl : fr.function.chunk.literal? index = some (.string name)) :
    Meets (execute (.setGlobal index)) (m.on (fr :: rest) (s ++ [v]))
      (match m.globals[name]? with
        | some _ =>
          .ok (.next, { m with globals := m.globals.insert name v }.on (fr :: rest) (s ++ [v]))
        | none => .error (.undefinedVariable name)) := by
  refine .bind (run_nameAt hl) (.refl _) (.bind run_peek (.refl _) ?_)
  cases hg : m.globals[name]? with
  | some w =>
    have hget : (getGlobal name).run (m.on (fr :: rest) (s ++ [v])) = .ok w _ := run_getGlobal hg
    exact .bind (run_discard hget) (.refl _) (.ok rfl (.refl _))
  | none =>
    have hget : (getGlobal name).run (m.on (fr :: rest) (s ++ [v])) = .error _ _ :=
      run_getGlobal_none hg
    exact Meets.fails (.error (run_discard_error hget) (.refl _))

theorem meets_getLocal {slot : Nat} (h : s[fr.base + slot]? = some v) :
    Meets (execute (.getLocal slot)) (m.on (fr :: rest) s)
      (.ok (.next, m.on (fr :: rest) (s ++ [v]))) :=
  .bind (run_getSlot h) (.refl _) (meets_push.andThen rfl)

/-- A slot takes the topmost value, which stays on the stack. -/
theorem meets_setLocal {slot : Nat} (h : fr.base + slot < s.length) :
    Meets (execute (.setLocal slot)) (m.on (fr :: rest) (s ++ [v]))
      (.ok (.next, m.on (fr :: rest) (s.set (fr.base + slot) v ++ [v]))) := by
  have hslot : (s ++ [v])[fr.base + slot]? = some s[fr.base + slot] := by
    rw [List.getElem?_append_left h, List.getElem?_eq_getElem h]
  refine .bind run_peek (.refl _) (.bind (run_discard (run_getSlot hslot)) (.refl _) (.ok ?_ ?_))
  · rw [EStateM.run_bind, run_putSlot, List.set_append_left _ _ h]
    rfl
  · exact Machine.within_on _ _ _ (by simp)

/-! ## Operators -/

theorem run_operand_ok {α : Type} (x : α) : (operand (.ok x)).run m = .ok x m := rfl

theorem run_operand_error {α : Type} (e : OperandError) :
    (operand (.error e : Except OperandError α)).run m = .error (.operand e) m := rfl

/-- An operator takes the place of its operand, or refuses it. -/
theorem meets_unary {f : Value → Except OperandError Value} (h : fr.base < s.length) :
    Meets (do unary f; return Signal.next) (m.on (fr :: rest) (s ++ [a]))
      (match f a with
        | .ok v => .ok (Signal.next, m.on (fr :: rest) (s ++ [v]))
        | .error e => .error (.operand e)) := by
  have hrun : Meets (unary f) (m.on (fr :: rest) (s ++ [a]))
      (match f a with
        | .ok v => .ok ((), m.on (fr :: rest) (s ++ [v]))
        | .error e => .error (.operand e)) := by
    refine .bind (run_pop h) (Machine.spares_pop ..) ?_
    cases hf : f a with
    | ok v => exact .bind (run_operand_ok v) (.refl _) meets_push
    | error e => exact Meets.fails (.error (run_operand_error e) (.refl _))
  cases hf : f a with
  | ok v =>
    rw [hf] at hrun
    exact hrun.andThen rfl
  | error e =>
    rw [hf] at hrun
    exact hrun.fails

/-- The two top values of a stack are popped one after the other. -/
theorem meets_pop_pop {x : Value → Value → Exec Signal} {r : Except Fault (Signal × Machine)}
    (h : fr.base < s.length) (hx : Meets (x b a) (m.on (fr :: rest) s) r) :
    Meets (do let b ← pop; let a ← pop; x b a) (m.on (fr :: rest) (s ++ [a, b])) r := by
  have hs : s ++ [a, b] = s ++ [a] ++ [b] := by simp
  rw [hs]
  have hlt : fr.base < (s ++ [a]).length := by
    rw [List.length_append]
    exact Nat.lt_add_right _ h
  exact .bind (run_pop hlt) (Machine.spares_pop ..) (.bind (run_pop h) (Machine.spares_pop ..) hx)

/-- An operator takes the place of its operands, or refuses them. -/
theorem meets_binary {f : Value → Value → Except OperandError Value} (h : fr.base < s.length) :
    Meets (do binary f; return Signal.next) (m.on (fr :: rest) (s ++ [a, b]))
      (match f a b with
        | .ok v => .ok (Signal.next, m.on (fr :: rest) (s ++ [v]))
        | .error e => .error (.operand e)) := by
  have hrun : (do binary f; return Signal.next) =
      (do let b ← pop; let a ← pop; push (← operand (f a b)); return Signal.next) := by
    simp only [binary, bind_assoc]
  rw [hrun]
  refine meets_pop_pop h ?_
  cases hf : f a b with
  | ok v => exact .bind (run_operand_ok v) (.refl _) (meets_push.andThen rfl)
  | error e => exact Meets.fails (.error (run_operand_error e) (.refl _))

theorem meets_equal (h : fr.base < s.length) :
    Meets (execute .equal) (m.on (fr :: rest) (s ++ [a, b]))
      (.ok (.next, m.on (fr :: rest) (s ++ [.bool (m.heap.equal a b)]))) :=
  meets_pop_pop h (.bind (EStateM.run_get _) (.refl _) (meets_push.andThen rfl))

/-- Of values that are not both objects no text is made. -/
theorem sum_of_plain (h : (a.isObject && b.isObject) = false) :
    Exec.sum a b = operand (a.add b) ∧ m.heap.sum a b = (a.add b).map (·, m.heap) := by
  cases a with
  | object x =>
    cases b with
    | object y => simp [Value.isObject] at h
    | nil | bool | int | float | vector | point => exact ⟨rfl, rfl⟩
  | nil | bool | int | float | vector | point => exact ⟨rfl, rfl⟩

/-- Two texts are joined to one on the heap; other values are added. -/
theorem run_sum : (Exec.sum a b).run (m.on (fr :: rest) s) =
    match m.heap.sum a b with
    | .ok (v, heap) => .ok v ({ m with heap := heap }.on (fr :: rest) s)
    | .error e => .error (.operand e) (m.on (fr :: rest) s) := by
  by_cases h : (a.isObject && b.isObject) = false
  · obtain ⟨hexec, hheap⟩ := sum_of_plain (m := m) h
    rw [hexec, hheap]
    cases a.add b <;> rfl
  · cases a with
    | object x =>
      cases b with
      | object y =>
        rw [Exec.sum, EStateM.run_bind, EStateM.run_get, Heap.sum]
        simp only [Machine.on_heap]
        cases (m.heap.get? x).bind Object.string? with
        | none => rfl
        | some s =>
          cases (m.heap.get? y).bind Object.string? with
          | none => rfl
          | some t => rfl
      | nil | bool | int | float | vector | point => simp [Value.isObject] at h
    | nil | bool | int | float | vector | point => simp [Value.isObject] at h

/-- The sum of two values takes their place, or they have none. -/
theorem meets_add (h : fr.base < s.length)
    (hheap : ∀ v heap, m.heap.sum a b = .ok (v, heap) → m.heap.Extends heap) :
    Meets (execute .add) (m.on (fr :: rest) (s ++ [a, b]))
      (match m.heap.sum a b with
        | .ok (v, heap) => .ok (.next, { m with heap := heap }.on (fr :: rest) (s ++ [v]))
        | .error e => .error (.operand e)) := by
  refine meets_pop_pop h ?_
  have hrun : (Exec.sum a b).run (m.on (fr :: rest) s) = _ := run_sum
  cases hs : m.heap.sum a b with
  | ok p =>
    obtain ⟨v, heap⟩ := p
    rw [hs] at hrun
    exact .bind hrun ⟨rfl, rfl, hheap v heap hs, rfl, .refl _⟩ (meets_push.andThen rfl)
  | error e =>
    rw [hs] at hrun
    exact Meets.fails (.error hrun (.refl _))

/-! ## Members -/

/-- A member of a global is set if it has one, and the value set stays on the stack. -/
theorem meets_setGlobalMember {index : Nat} {name : String} {mem : Member}
    (hl : fr.function.chunk.literal? index = some (.string name)) (h : fr.base < s.length)
    (hlimit : s.length < stackLimit) :
    Meets (execute (.setGlobalMember index mem)) (m.on (fr :: rest) (s ++ [a]))
      (match m.globals[name]? with
        | none => .error (.undefinedVariable name)
        | some old =>
          match old.setMember mem a with
          | .ok (new, stored) => .ok (.next, { m with globals := m.globals.insert name new }.on
              (fr :: rest) (s ++ [Value.float stored]))
          | .error e => .error (.operand e)) := by
  refine .bind (run_nameAt hl) (.refl _) (.bind (run_pop h) (Machine.spares_pop ..) ?_)
  cases hg : m.globals[name]? with
  | none =>
    have hget : (getGlobal name).run (m.on (fr :: rest) s) = .error _ _ := run_getGlobal_none hg
    exact Meets.fails (.error hget (.refl _))
  | some old =>
    have hget : (getGlobal name).run (m.on (fr :: rest) s) = .ok old _ := run_getGlobal hg
    refine .bind hget (.refl _) ?_
    dsimp only
    cases hm : old.setMember mem a with
    | error e => exact Meets.fails (.error (run_operand_error e) (.refl _))
    | ok p =>
      obtain ⟨new, stored⟩ := p
      -- nothing can go wrong once the global has changed
      have hpush : (push (.float stored)).run
          ({ m with globals := m.globals.insert name new }.on (fr :: rest) s) = .ok () _ :=
          run_push hlimit
      refine .bind (run_operand_ok _) (.refl _) (.ok ?_ ?_)
      · show ((push (.float stored)) >>= fun _ => pure Signal.next : Exec Signal).run
          ({ m with globals := m.globals.insert name new }.on (fr :: rest) s) = _
        rw [EStateM.run_bind, hpush]
        rfl
      · simp only [Machine.Within, Machine.on_stack, List.size_toArray, List.length_append,
          List.length_singleton]
        omega

theorem meets_setLocalMember {slot : Nat} {mem : Member} {old : Value}
    (hslot : s[fr.base + slot]? = some old) (h : fr.base < s.length) :
    Meets (execute (.setLocalMember slot mem)) (m.on (fr :: rest) (s ++ [a]))
      (match old.setMember mem a with
        | .ok (new, stored) =>
          .ok (.next, m.on (fr :: rest) (s.set (fr.base + slot) new ++ [.float stored]))
        | .error e => .error (.operand e)) := by
  refine .bind (run_pop h) (Machine.spares_pop ..) (.bind (run_getSlot hslot) (.refl _) ?_)
  cases hm : old.setMember mem a with
  | error e => exact Meets.fails (.error (run_operand_error e) (.refl _))
  | ok p =>
    obtain ⟨new, stored⟩ := p
    exact .bind (run_operand_ok _) (.refl _) (.bind (run_putSlot slot)
      (Machine.spares_on _ _ (by simp)) (meets_push.andThen rfl))

/-! ## Output and jumps -/

/-- What is displayed goes to the output, or the output refuses it. -/
theorem meets_print (h : fr.base < s.length) :
    Meets (execute .print) (m.on (fr :: rest) (s ++ [a]))
      (match m.sink with
        | .accepting => .ok (.printed (m.display a ++ "\n"), m.on (fr :: rest) s)
        | .broken reason => .error (.output reason)) := by
  refine .bind (run_pop h) (Machine.spares_pop ..) (.bind (EStateM.run_get _) (.refl _) ?_)
  have hprint (text : String) : (print text).run (m.on (fr :: rest) s) =
      match m.sink with
      | .accepting => .ok (.printed (text ++ "\n")) (m.on (fr :: rest) s)
      | .broken reason => .error (.output reason) (m.on (fr :: rest) s) := by
    rw [print, EStateM.run_bind, EStateM.run_get]
    simp only [Machine.on_sink]
    cases m.sink <;> rfl
  have hrun := hprint ((m.on (fr :: rest) s).display a)
  cases hsink : m.sink with
  | accepting =>
    rw [hsink] at hrun
    exact .ok hrun (.refl _)
  | broken reason =>
    rw [hsink] at hrun
    exact .error hrun (.refl _)

theorem meets_jump (offset : Nat) : Meets (execute (.jump offset)) (m.on (fr :: rest) s)
    (.ok (.next, m.on ({ fr with cursor := fr.cursor + offset } :: rest) s)) :=
  .ok rfl (.refl _)

/-- The jump is made if the topmost value is false, and only then. -/
theorem meets_jumpIfFalse (offset : Nat) :
    Meets (execute (.jumpIfFalse offset)) (m.on (fr :: rest) (s ++ [v]))
      (.ok (.next, m.on
        ((if v = .bool false then { fr with cursor := fr.cursor + offset } else fr) :: rest)
        (s ++ [v]))) := by
  refine .ok ?_ (Machine.within_on _ _ _ (Nat.le_refl _))
  rw [execute, EStateM.run_bind, run_peek]
  by_cases hv : v = .bool false
  · simp only [if_pos hv]
    rfl
  · simp only [if_neg hv]
    rfl

/-- A jump back within the code. -/
theorem meets_loop {offset : Nat} (h : offset ≤ fr.cursor) :
    Meets (execute (.loop offset)) (m.on (fr :: rest) s)
      (.ok (.next, m.on ({ fr with cursor := fr.cursor - offset } :: rest) s)) := by
  refine .ok ?_ (.refl _)
  rw [execute, EStateM.run_bind, run_frame]
  simp only [if_neg (Nat.not_lt.mpr h)]
  rfl

theorem meets_yield : Meets (execute .yield) (m.on (fr :: rest) s)
    (.ok (.exit .yielded, m.on (fr :: rest) s)) :=
  .ok rfl (.refl _)

theorem meets_stop : Meets (execute .stop) (m.on (fr :: rest) s)
    (.ok (.exit .finished, m.on [] [])) :=
  .ok rfl (Machine.within_on _ _ _ (by simp))

/-! ## Calls -/

section

variable {frames : List Frame} {arguments : List Value} {ref : Ref}

/-- The callee lies below the arguments. -/
theorem run_call_eq (callee : Value) :
    (call arguments.length).run (m.on frames (s ++ callee :: arguments)) =
      (match callee with
        | .object ref =>
          match m.heap.get? ref with
          | some (.function f) => enter f s.length arguments.length
          | some (.native n) => callNative n s.length arguments.length
          | some (.string _) => throw (.notCallable "string")
          | none => throw .danglingObject
        | v => throw (.notCallable v.tag.name) : Exec Unit).run
          (m.on frames (s ++ callee :: arguments)) := by
  have hsize : (m.on frames (s ++ callee :: arguments)).stack.size =
    s.length + (arguments.length + 1) := by
    simp
  have hcallee : (m.on frames (s ++ callee :: arguments)).stack[s.length]? = some callee := by simp
  rw [call, EStateM.run_bind, EStateM.run_get]
  simp only [hsize, if_neg (Nat.not_lt.mpr (Nat.le_add_left (arguments.length + 1) s.length)),
    Nat.add_sub_cancel, hcallee, Machine.on_heap]
  cases callee <;> rfl

/-- A call is entered with as many arguments as the function has parameters, and up to a limit. -/
theorem meets_enter {f : Function} {base n : Nat} :
    Meets (enter f base n) (m.on frames s)
      (if f.arity ≠ n then .error (.arityMismatch f.arity n)
      else if frameLimit ≤ frames.length then .error .stackOverflow
      else .ok ((), m.on (⟨f, 0, base⟩ :: frames) s)) := by
  by_cases harity : f.arity ≠ n
  · rw [enter, if_pos harity, if_pos harity]
    exact .error rfl (.refl _)
  · rw [enter, if_neg harity, if_neg harity]
    refine .bind (EStateM.run_get _) (.refl _) ?_
    by_cases hlimit : frameLimit ≤ frames.length
    · rw [if_pos hlimit, if_pos (by exact hlimit)]
      exact .error rfl (.refl _)
    · rw [if_neg hlimit, if_neg (by exact hlimit)]
      exact .ok rfl (.refl _)

/-- The result of a native takes the place of the native and its arguments. -/
theorem meets_applyNative {n : Native} {callee : Value} :
    Meets (applyNative n s.length) (m.on frames (s ++ callee :: arguments))
      (match (n.call arguments).mapError (Fault.native n.name) with
        | .ok v => .ok ((), m.on frames (s ++ [v]))
        | .error e => .error e) := by
  refine .bind (EStateM.run_get _) (.refl _) ?_
  have hdrop : (m.on frames (s ++ callee :: arguments)).stack.toList.drop (s.length + 1) =
    arguments := by
    simp
  rw [hdrop]
  cases n.call arguments with
  | ok v =>
    have htruncate : (truncate s.length).run (m.on frames (s ++ callee :: arguments)) =
        .ok () (m.on frames s) := by
      rw [run_truncate, List.take_left]
    exact .bind htruncate (Machine.spares_pop ..) meets_push
  | error message => exact .error rfl (.refl _)

/-- A native is called with as many arguments as it expects. -/
theorem meets_callNative {n : Native} {callee : Value} :
    Meets (callNative n s.length arguments.length) (m.on frames (s ++ callee :: arguments))
      (match n.result arguments with
        | .ok v => .ok ((), m.on frames (s ++ [v]))
        | .error e => .error e) := by
  rw [callNative, Native.result]
  cases n.arity with
  | none => exact meets_applyNative
  | some expected =>
    by_cases h : expected ≠ arguments.length
    · simp only [if_pos h]
      exact .error rfl (.refl _)
    · simp only [if_neg h]
      exact meets_applyNative

/-- A result of calling is a result of the instruction. -/
theorem Meets.next {x y : Exec Unit} {m : Machine} {r : Except Fault (Unit × Machine)}
    (hrun : x.run m = y.run m) (h : Meets y m r) :
    Meets (do x; return Signal.next) m (r.map fun p => (Signal.next, p.2)) := by
  cases h with
  | ok h k => exact Meets.andThen (.ok (hrun.trans h) k) rfl
  | error h k => exact Meets.fails (.error (hrun.trans h) k)
  | full h k => exact .full (by rw [EStateM.run_bind, hrun, h]) k

/-- A call of a function on the heap enters it. -/
theorem meets_call_function {f : Function} (hf : m.heap.get? ref = some (.function f)) :
    Meets (execute (.call arguments.length)) (m.on frames (s ++ .object ref :: arguments))
      (if f.arity ≠ arguments.length then .error (.arityMismatch f.arity arguments.length)
      else if frameLimit ≤ frames.length then .error .stackOverflow
      else .ok (.next, m.on (⟨f, 0, s.length⟩ :: frames) (s ++ .object ref :: arguments))) := by
  have hrun : (call arguments.length).run (m.on frames (s ++ .object ref :: arguments)) = _ :=
    run_call_eq (.object ref)
  simp only [hf] at hrun
  have hmeets := Meets.next hrun meets_enter
  by_cases harity : f.arity ≠ arguments.length
  · rw [if_pos harity] at hmeets ⊢
    exact hmeets
  · rw [if_neg harity] at hmeets ⊢
    by_cases hlimit : frameLimit ≤ frames.length
    · rw [if_pos hlimit] at hmeets ⊢
      exact hmeets
    · rw [if_neg hlimit] at hmeets ⊢
      exact hmeets

/-- A call of a native on the heap takes its result. -/
theorem meets_call_native {n : Native} (hn : m.heap.get? ref = some (.native n)) :
    Meets (execute (.call arguments.length)) (m.on frames (s ++ .object ref :: arguments))
      (match n.result arguments with
        | .ok v => .ok (.next, m.on frames (s ++ [v]))
        | .error e => .error e) := by
  have hrun : (call arguments.length).run (m.on frames (s ++ .object ref :: arguments)) = _ :=
    run_call_eq (.object ref)
  simp only [hn] at hrun
  have hmeets := Meets.next hrun meets_callNative
  cases hr : n.result arguments with
  | ok v =>
    rw [hr] at hmeets
    exact hmeets
  | error e =>
    rw [hr] at hmeets
    exact hmeets

/-- What is neither a function nor a native cannot be called. -/
theorem meets_call_other {callee : Value} {e : Fault}
    (he : (∃ ref text, callee = .object ref ∧ m.heap.get? ref = some (.string text) ∧
        e = .notCallable "string") ∨
      (∃ ref, callee = .object ref ∧ m.heap.get? ref = none ∧ e = .danglingObject) ∨
      (callee.isObject = false ∧ e = .notCallable callee.tag.name)) :
    Meets (execute (.call arguments.length)) (m.on frames (s ++ callee :: arguments))
      (.error e) := by
  have hrun : (call arguments.length).run (m.on frames (s ++ callee :: arguments)) = _ :=
    run_call_eq callee
  rcases he with ⟨ref, text, rfl, hget, rfl⟩ | ⟨ref, rfl, hget, rfl⟩ | ⟨hplain, rfl⟩
  · simp only [hget] at hrun
    exact Meets.fails (.error hrun (.refl _))
  · simp only [hget] at hrun
    exact Meets.fails (.error hrun (.refl _))
  · cases callee with
    | object ref => simp [Value.isObject] at hplain
    | nil | bool | int | float | vector | point => exact Meets.fails (.error hrun (.refl _))

end

/-- A return drops the values of its call and gives the topmost one to the caller; the last one ends
the program. -/
theorem meets_ret (h : fr.base < s.length) (hlimit : fr.base < stackLimit) :
    Meets (execute .ret) (m.on (fr :: rest) (s ++ [v]))
      (if rest.isEmpty then .ok (.exit .finished, m.on [] (s.take fr.base))
      else .ok (.next, m.on rest (s.take fr.base ++ [v]))) := by
  refine .bind (run_pop h) (Machine.spares_pop ..) ?_
  have hpush : (push v).run (m.on rest (s.take fr.base)) =
    .ok () (m.on rest (s.take fr.base ++ [v])) :=
    run_push (by rw [List.length_take]; omega)
  have htruncate : (truncate fr.base).run (m.on rest s) = .ok () (m.on rest (s.take fr.base)) :=
    run_truncate _
  cases rest with
  | nil =>
    refine .ok ?_ (Machine.within_on _ _ _ (List.length_take_le' _ _))
    show ((truncate fr.base >>= fun _ => pure (Signal.exit .finished)) : Exec Signal).run
      (m.on [] s) = _
    rw [EStateM.run_bind, htruncate]
    rfl
  | cons next rest =>
    refine .ok ?_ (Machine.within_on _ _ _ ?_)
    · show ((truncate fr.base >>= fun _ => push v >>= fun _ => pure Signal.next) : Exec Signal).run
        (m.on (next :: rest) s) = _
      rw [EStateM.run_bind, htruncate]
      simp only [EStateM.run_bind, hpush]
      rfl
    · rw [List.length_append, List.length_take, List.length_singleton]
      omega

/-! ## Steps -/

theorem run_frame_cons (hframes : m.frames = fr :: rest) : frame.run m = .ok fr m := by
  rw [frame, EStateM.run_bind, EStateM.run_get]
  dsimp only
  rw [hframes]
  rfl

/-- The instruction at the cursor is read, and the cursor moves past it. -/
theorem run_fetch {instruction : Instruction} (hframes : m.frames = fr :: rest)
    (hi : fr.function.chunk.instruction? fr.cursor = some instruction) :
    fetch.run m = .ok instruction
    { m with frames := { fr with cursor := fr.cursor + 1 } :: rest } := by
  have hgoto : (goto (fr.cursor + 1)).run m =
      .ok () { m with frames := { fr with cursor := fr.cursor + 1 } :: rest } := by
    rw [goto, EStateM.run_modify, hframes]
  rw [fetch, EStateM.run_bind, run_frame_cons hframes]
  dsimp only
  rw [hi]
  dsimp only
  rw [EStateM.run_bind, hgoto]
  rfl

/-- A step executes the instruction at the cursor, which moves past it first. -/
theorem run_step {instruction : Instruction} (hframes : m.frames = fr :: rest)
    (hi : fr.function.chunk.instruction? fr.cursor = some instruction) :
    step.run m = (execute instruction).run
    { m with frames := { fr with cursor := fr.cursor + 1 } :: rest } := by
  rw [step, EStateM.run_bind, run_fetch hframes hi]

/-- Behind the last instruction there is nothing to execute. -/
theorem run_step_end (hframes : m.frames = fr :: rest)
    (hi : fr.function.chunk.instruction? fr.cursor = none) :
    step.run m = .error (.ranOffEnd fr.function.displayName) m := by
  rw [step, EStateM.run_bind, fetch, EStateM.run_bind, run_frame_cons hframes]
  dsimp only
  rw [hi]
  rfl

/-- A machine without calls has no instruction to execute. -/
theorem run_step_idle (hframes : m.frames = []) : step.run m = .error .noFrame m := by
  rw [step, EStateM.run_bind, fetch, EStateM.run_bind, frame, EStateM.run_bind, EStateM.run_get]
  dsimp only
  rw [hframes]
  rfl

/-- A step does what is known of the instruction at the cursor. -/
theorem meets_step {f : Function} {i base : Nat} {instruction : Instruction}
    {r : Except Fault (Signal × Machine)} (hi : f.chunk.instruction? i = some instruction)
    (h : Meets (execute instruction) (m.on (⟨f, i + 1, base⟩ :: rest) s) r) :
    (∃ sig m', r = .ok (sig, m') ∧ step.run (m.on (⟨f, i, base⟩ :: rest) s) = .ok sig m' ∧
        (m.on (⟨f, i, base⟩ :: rest) s).Within m') ∨
      ∃ e m', (e = .valueStackOverflow ∨ r = .error e) ∧
        step.run (m.on (⟨f, i, base⟩ :: rest) s) = .error e m' ∧
        (m.on (⟨f, i + 1, base⟩ :: rest) s).Spares m' := by
  have hrun : step.run (m.on (⟨f, i, base⟩ :: rest) s) =
      (execute instruction).run (m.on (⟨f, i + 1, base⟩ :: rest) s) :=
    run_step (Machine.on_frames ..) hi
  cases h with
  | ok h k => exact .inl ⟨_, _, rfl, hrun.trans h, k⟩
  | error h k => exact .inr ⟨_, _, .inr rfl, hrun.trans h, k⟩
  | full h k => exact .inr ⟨_, _, .inl rfl, hrun.trans h, k⟩

end Exec

end EntityScript
