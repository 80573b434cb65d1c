/-
# What the parts of an instruction do

A machine is written as `m.on frames stack`, with the stack as a list, so that what an instruction
takes and leaves can be read off the ends of lists.

An instruction meets a result (`Exec.Meets`) if it gives that result or the stack is full; in this
way the limit of the stack has to be thought of only where a value is pushed.  An instruction that
fails has changed nothing that outlives it (`Machine.Spares`).
-/
import EntityScript.Machine.Run
import EntityScript.Proofs.Machine.Heap

namespace EntityScript

namespace Machine

/-- A machine with other calls and another stack. -/
def on (m : Machine) (frames : List Frame) (stack : List Value) : Machine :=
  { m with frames := frames, stack := stack.toArray }

section

variable (m : Machine) (frames : List Frame) (stack : List Value)

@[simp] theorem on_stack : (m.on frames stack).stack = stack.toArray := rfl
@[simp] theorem on_frames : (m.on frames stack).frames = frames := rfl
@[simp] theorem on_globals : (m.on frames stack).globals = m.globals := rfl
@[simp] theorem on_heap : (m.on frames stack).heap = m.heap := rfl
@[simp] theorem on_host : (m.on frames stack).host = m.host := rfl
@[simp] theorem on_sink : (m.on frames stack).sink = m.sink := rfl
@[simp] theorem on_status : (m.on frames stack).status = m.status := rfl

end

/-- The second machine has no more values than the first, or as many as the limit allows. -/
def Within (m m' : Machine) : Prop :=
  m'.stack.size ≤ max m.stack.size stackLimit

theorem Within.refl (m : Machine) : Within m m :=
  Nat.le_max_left _ _

/-- The limit is that of the first machine and of the machine itself. -/
theorem Within.trans {a b c : Machine} (h : Within a b) (k : Within b c) : Within a c := by
  unfold Within at *
  omega

/-- The second machine has the calls and the globals of the first, and all its objects. -/
structure Spares (m m' : Machine) : Prop where
  frames : m'.frames = m.frames
  globals : m'.globals = m.globals
  heap : m.heap.Extends m'.heap
  host : m'.host = m.host
  within : Within m m'

theorem Spares.refl (m : Machine) : Spares m m :=
  ⟨rfl, rfl, .refl _, rfl, .refl m⟩

/-- What two steps spare, one after the other, they spare together. -/
theorem Spares.trans {a b c : Machine} (h : Spares a b) (k : Spares b c) : Spares a c :=
  ⟨k.frames.trans h.frames, k.globals.trans h.globals, h.heap.trans k.heap, k.host.trans h.host,
    h.within.trans k.within⟩

/-- A stack that is no higher is within the limit. -/
theorem within_on (m : Machine) (frames frames' : List Frame) {s t : List Value}
    (h : t.length ≤ s.length) : Within (m.on frames s) (m.on frames' t) := by
  simp only [Within, on_stack, List.size_toArray]
  omega

theorem spares_on (m : Machine) (frames : List Frame) {s t : List Value} (h : t.length ≤ s.length) :
    Spares (m.on frames s) (m.on frames t) :=
  ⟨rfl, rfl, .refl _, rfl, within_on m frames frames h⟩

/-- Values may be dropped from the top of the stack. -/
theorem spares_pop (m : Machine) (frames : List Frame) (s t : List Value) :
    Spares (m.on frames (s ++ t)) (m.on frames s) :=
  spares_on m frames (by simp)

end Machine

namespace Exec

variable {α β : Type}

/-- A computation gives a result, unless the stack is full. -/
inductive Meets (x : Exec α) (m : Machine) : Except Fault (α × Machine) → Prop where
  | ok {a : α} {m' : Machine} : x.run m = .ok a m' → m.Within m' → Meets x m (.ok (a, m'))
  | error {e : Fault} {m' : Machine} : x.run m = .error e m' → m.Spares m' → Meets x m (.error e)
  | full {r : Except Fault (α × Machine)} {m' : Machine} :
    x.run m = .error .valueStackOverflow m' → m.Spares m' → Meets x m r

namespace Meets

/-- A computation that begins with one that succeeds. -/
theorem bind {x : Exec α} {f : α → Exec β} {m m' : Machine} {a : α} {r : Except Fault (β × Machine)}
    (hx : x.run m = .ok a m') (hs : m.Spares m') (hf : Meets (f a) m' r) : Meets (x >>= f) m r := by
  have hrun : (x >>= f).run m = (f a).run m' := by rw [EStateM.run_bind, hx]
  cases hf with
  | ok h k => exact .ok (hrun.trans h) (hs.within.trans k)
  | error h k => exact .error (hrun.trans h) (hs.trans k)
  | full h k => exact .full (hrun.trans h) (hs.trans k)

/-- A computation that begins with one that may find the stack full. -/
theorem andThen {x : Exec α} {f : α → Exec β} {m m' : Machine} {a : α} {b : β}
    (hx : Meets x m (.ok (a, m'))) (hf : (f a).run m' = .ok b m') :
    Meets (x >>= f) m (.ok (b, m')) := by
  cases hx with
  | ok h k => exact .ok (by rw [EStateM.run_bind, h]; exact hf) k
  | full h k => exact .full (by rw [EStateM.run_bind, h]) k

/-- A computation that begins with one that fails. -/
theorem fails {x : Exec α} {f : α → Exec β} {m : Machine} {e : Fault} (hx : Meets x m (.error e)) :
    Meets (x >>= f) m (.error e) := by
  cases hx with
  | error h k => exact .error (by rw [EStateM.run_bind, h]) k
  | full h k => exact .full (by rw [EStateM.run_bind, h]) k

end Meets

/-- A computation whose value does not matter ends as it does with the value. -/
theorem run_discard {x : Exec α} {m m' : Machine} {a : α} (h : x.run m = .ok a m') :
    (discard x).run m = .ok () m' := by
  show EStateM.map (fun _ => ()) x m = _
  rw [EStateM.map, show x m = .ok a m' from h]

theorem run_discard_error {x : Exec α} {m m' : Machine} {e : Fault} (h : x.run m = .error e m') :
    (discard x).run m = .error e m' := by
  show EStateM.map (fun _ => ()) x m = _
  rw [EStateM.map, show x m = .error e m' from h]

/-! ## The stack -/

section

variable {m : Machine} {fr : Frame} {frames rest : List Frame} {s : List Value} {v : Value}

/-- A value is put on a stack that is not full. -/
theorem run_push (h : s.length < stackLimit) :
    (push v).run (m.on frames s) = .ok () (m.on frames (s ++ [v])) := by
  rw [push, EStateM.run_bind, EStateM.run_get]
  have hsize : (m.on frames s).stack.size < stackLimit := by simpa using h
  simp only [if_pos hsize, EStateM.run_modify]
  simp [Machine.on]

/-- A value is put on the stack, unless it is full. -/
theorem meets_push : Meets (push v) (m.on frames s) (.ok ((), m.on frames (s ++ [v]))) := by
  by_cases h : s.length < stackLimit
  · refine .ok (run_push h) ?_
    simp only [Machine.Within, Machine.on_stack, List.size_toArray, List.length_append,
      List.length_singleton]
    omega
  · have hsize : ¬ (m.on frames s).stack.size < stackLimit := by simpa using h
    refine .full ?_ (.refl _)
    rw [push, EStateM.run_bind, EStateM.run_get]
    simp only [if_neg hsize]
    rfl

/-- The topmost value is taken from the stack if it lies in the part of the innermost call. -/
theorem run_pop (h : fr.base < s.length) :
    pop.run (m.on (fr :: rest) (s ++ [v])) = .ok v (m.on (fr :: rest) s) := by
  have hback : (m.on (fr :: rest) (s ++ [v])).stack.back? = some v := by simp
  have hfloor : ¬ (m.on (fr :: rest) (s ++ [v])).stack.size ≤ floor
    (m.on (fr :: rest) (s ++ [v])) := by
    simp [floor]
    omega
  rw [pop, EStateM.run_bind, EStateM.run_get]
  simp only [hback, if_neg hfloor, EStateM.run_bind, EStateM.run_modify, EStateM.run_pure]
  simp [Machine.on]

/-- Looking at the top of the stack leaves it there. -/
theorem run_peek : peek.run (m.on frames (s ++ [v])) = .ok v (m.on frames (s ++ [v])) := by
  have hback : (m.on frames (s ++ [v])).stack.back? = some v := by simp
  rw [peek, EStateM.run_bind, EStateM.run_get]
  simp only [hback, EStateM.run_pure]

/-- A slot is read, counted from the place of the innermost call on the stack. -/
theorem run_getSlot {slot : Nat} (h : s[fr.base + slot]? = some v) :
    (getSlot slot).run (m.on (fr :: rest) s) = .ok v (m.on (fr :: rest) s) := by
  have hget : (m.on (fr :: rest) s).stack[fr.base + slot]? = some v := by simpa using h
  have hframe : frame.run (m.on (fr :: rest) s) = .ok fr (m.on (fr :: rest) s) := rfl
  rw [getSlot, EStateM.run_bind, hframe]
  simp only [EStateM.run_bind, EStateM.run_get, hget]
  rfl

/-- A slot is set, counted from the same place. -/
theorem run_putSlot (slot : Nat) :
    (putSlot slot v).run (m.on (fr :: rest) s) =
      .ok () (m.on (fr :: rest) (s.set (fr.base + slot) v)) := by
  show EStateM.Result.ok () { m.on (fr :: rest) s with
    stack := (m.on (fr :: rest) s).stack.setIfInBounds (fr.base + slot) v } = _
  simp [Machine.on]

/-- The stack is cut down to its lowest values. -/
theorem run_truncate (n : Nat) :
    (truncate n).run (m.on frames s) = .ok () (m.on frames (s.take n)) := by
  show EStateM.Result.ok () { m.on frames s with stack := (m.on frames s).stack.take n } = _
  simp [Machine.on]

/-- The innermost call can always be looked at. -/
theorem run_frame : frame.run (m.on (fr :: rest) s) = .ok fr (m.on (fr :: rest) s) := rfl

end

end Exec

end EntityScript
