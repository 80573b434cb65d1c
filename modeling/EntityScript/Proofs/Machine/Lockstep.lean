/-
# Machines in lockstep

Two computations on machines that correspond run in parallel: they give related results, or they
fail with the same fault and machines that show the same (`Exec.Parallel`).  Every part of an
instruction takes values that stand for each other to values that stand for each other, and so do
the instructions themselves, with jumps to places from which both functions go on in the same way
(`Exec.parallel_execute`).
-/
import EntityScript.Proofs.Machine.Correspondence

namespace EntityScript

namespace Exec

variable {α β γ δ : Type} {A : Machine → Machine → Prop}

/-- Two results that are related, or the same fault of two machines that are alike. -/
inductive Results (A : Machine → Machine → Prop) (Q : α → β → Machine → Machine → Prop) :
    EStateM.Result Fault Machine α → EStateM.Result Fault Machine β → Prop where
  | ok {a : α} {b : β} {k k' : Machine} : Q a b k k' → Results A Q (.ok a k) (.ok b k')
  | error {e : Fault} {k k' : Machine} : A k k' → Results A Q (.error e k) (.error e k')

/-- Two computations give related results, or fail in the same way. -/
def Parallel (A : Machine → Machine → Prop) (x : Exec α) (y : Exec β) (m m' : Machine)
    (Q : α → β → Machine → Machine → Prop) : Prop :=
  Results A Q (x.run m) (y.run m')

/-- Values and machines that are related. -/
inductive Pair (R : α → β → Prop) (P : Machine → Machine → Prop) :
    α → β → Machine → Machine → Prop where
  | mk {a : α} {b : β} {k k' : Machine} : R a b → P k k' → Pair R P a b k k'

/-- The same signal, which is not that of a pause, with machines that are related. -/
inductive Onward (P : Machine → Machine → Prop) : Signal → Signal → Machine → Machine → Prop where
  | next {k k' : Machine} : P k k' → Onward P .next .next k k'
  | printed {text : String} {k k' : Machine} :
    P k k' → Onward P (.printed text) (.printed text) k k'
  | finished {k k' : Machine} : P k k' → Onward P (.exit .finished) (.exit .finished) k k'

namespace Parallel

variable {m m' : Machine} {Q : α → β → Machine → Machine → Prop}
  {S : γ → δ → Machine → Machine → Prop} {R : α → β → Prop} {P : Machine → Machine → Prop}

theorem pure {a : α} {b : β} (h : Q a b m m') : Parallel A (pure a) (pure b) m m' Q :=
  .ok h

theorem throw (e : Fault) (h : A m m') : Parallel A (throw e : Exec α) (throw e : Exec β) m m' Q :=
  .error h

theorem modify {Q : Unit → Unit → Machine → Machine → Prop} {f g : Machine → Machine}
    (h : Q () () (f m) (g m')) :
    Parallel A (modify f) (modify g) m m' Q :=
  .ok h

/-- Going on after results that are related; a fault on both sides ends both. -/
theorem bind {x : Exec α} {y : Exec β} {f : α → Exec γ} {g : β → Exec δ} (h : Parallel A x y m m' Q)
    (hf : ∀ a b k k', Q a b k k' → Parallel A (f a) (g b) k k' S) :
    Parallel A (x >>= f) (y >>= g) m m' S := by
  rw [Parallel] at h
  rw [Parallel, EStateM.run_bind, EStateM.run_bind]
  generalize x.run m = r at h ⊢
  generalize y.run m' = r' at h ⊢
  cases h with
  | ok hq => exact hf _ _ _ _ hq
  | error he => exact .error he

theorem get {f : Machine → Exec γ} {g : Machine → Exec δ} (h : Parallel A (f m) (g m') m m' S) :
    Parallel A (get >>= f) (get >>= g) m m' S := by
  rw [Parallel, EStateM.run_bind, EStateM.run_bind]
  exact h

/-- What is known of the results may be told less exactly. -/
theorem mono {Q' : α → β → Machine → Machine → Prop} {x : Exec α} {y : Exec β}
    (h : Parallel A x y m m' Q) (hq : ∀ a b k k', Q a b k k' → Q' a b k k') :
    Parallel A x y m m' Q' := by
  rw [Parallel] at h ⊢
  generalize x.run m = r at h ⊢
  generalize y.run m' = r' at h ⊢
  cases h with
  | ok h => exact .ok (hq _ _ _ _ h)
  | error h => exact .error h

/-- Going on with values and machines that are related. -/
theorem next {x : Exec α} {y : Exec β} {f : α → Exec γ} {g : β → Exec δ}
    (h : Parallel A x y m m' (Pair R P))
    (hf : ∀ a b k k', R a b → P k k' → Parallel A (f a) (g b) k k' S) :
    Parallel A (x >>= f) (y >>= g) m m' S := by
  refine h.bind fun a b k k' hq => ?_
  cases hq with
  | mk hr hp => exact hf a b k k' hr hp

/-- Going on with values that have been read. -/
theorem read {x : Exec α} {y : Exec β} {f : α → Exec γ} {g : β → Exec δ}
    (h : Parallel A x y m m' (Pair R fun k k' => k = m ∧ k' = m'))
    (hf : ∀ a b, R a b → Parallel A (f a) (g b) m m' S) :
    Parallel A (x >>= f) (y >>= g) m m' S := by
  refine h.next fun a b k k' hr hk => ?_
  obtain ⟨rfl, rfl⟩ := hk
  exact hf a b hr

end Parallel

/-! ## The parts of an instruction -/

open Correspondence

section

variable {C : Correspondence} {h h' : Heap} {fr fr' : Frame} {rest rest' fs fs' : List Frame}
  {m m' : Machine} {v v' a a' b b' : Value}

/-- A computation that only reads, on machines that correspond. -/
abbrev Reads (C : Correspondence) (x : Exec α) (y : Exec β) (m m' : Machine) (R : α → β → Prop) :
    Prop :=
  Parallel C.Alike x y m m' (Pair R fun k k' => k = m ∧ k' = m')

/-- A computation that leaves the heaps and the calls as they are. -/
abbrev Stays (C : Correspondence) (h h' : Heap) (fs fs' : List Frame) (x : Exec α) (y : Exec β)
    (m m' : Machine) (R : α → β → Prop) : Prop :=
  Parallel C.Alike x y m m' (Pair R (C.Abreast h h' fs fs'))

section

variable (hfs : List.Forall₂ C.Waiting fs fs') (hm : C.Abreast h h' fs fs' m m')

include hfs hm

/-- Values that stand for each other are put on both stacks, or both are full. -/
theorem parallel_push (hv : C.value h h' v v') :
    Stays C h h' fs fs' (push v) (push v') m m' Eq := by
  refine .get ?_
  rw [hm.stack.size_eq]
  split
  · exact .modify (.mk rfl (hm.withStack (hm.stack.push hv)))
  · exact .throw _ (hm.alike hfs)

/-- The topmost values stand for each other. -/
theorem reads_peek (hhidden : C.hidden ≤ m.stack.size - 1) :
    Reads C peek peek m m' (C.value h h') := by
  refine .get ?_
  have hback := hm.stack.back hhidden
  generalize m.stack.back? = top at hback ⊢
  generalize m'.stack.back? = top' at hback ⊢
  cases hback with
  | some hv => exact .pure (.mk hv ⟨rfl, rfl⟩)
  | none => exact .throw _ (hm.alike hfs)

omit hm in
/-- A global has values that stand for each other, or is undefined on both sides. -/
theorem reads_getGlobal (hm : C.Abreast h h' fs fs' m m') (name : String) :
    Reads C (getGlobal name) (getGlobal name) m m' (C.value h h') := by
  refine .get ?_
  have hglobal := hm.globals name
  generalize m.globals[name]? = global at hglobal ⊢
  generalize m'.globals[name]? = global' at hglobal ⊢
  cases hglobal with
  | some hv => exact .pure (.mk hv ⟨rfl, rfl⟩)
  | none => exact .throw _ (hm.alike hfs)

omit hfs in
theorem parallel_putGlobal (hv : C.value h h' v v') (name : String) :
    Stays C h h' fs fs' (putGlobal name v) (putGlobal name v') m m' Eq :=
  .modify (.mk rfl (hm.withGlobal hv name))

omit hfs in
theorem parallel_truncate (size : Nat) :
    Stays C h h' fs fs' (truncate size) (truncate size) m m' Eq :=
  .modify (.mk rfl (hm.withStack (hm.stack.take size)))

/-- An operation on plain values gives the same on both sides. -/
theorem reads_operand (r : Except OperandError α) :
    Reads C (operand r) (operand r) m m' fun a b => b = a ∧ r = .ok a := by
  cases r with
  | ok a => exact .pure (.mk ⟨rfl, rfl⟩ ⟨rfl, rfl⟩)
  | error e => exact .throw _ (hm.alike hfs)

/-- The result of an operator is a plain value, which stands for itself. -/
theorem parallel_pushResult (L : C.Lawful) {r : Except OperandError Value} (hr : PlainResult r) :
    Stays C h h' fs fs' (operand r >>= push) (operand r >>= push) m m' Eq := by
  cases r with
  | ok v => exact parallel_push hfs hm (L.plain (hr v rfl))
  | error e => exact .throw _ (hm.alike hfs)

omit hfs in
/-- Literals that stand for each other become values that do, on heaps that may have grown. -/
theorem parallel_literalValue (L : C.Lawful) {l l' : Literal} (hl : C.literal l l') :
    Parallel C.Alike (literalValue l) (literalValue l') m m' fun v v' k k' =>
      ∃ g g', C.value g g' v v' ∧ C.Abreast g g' fs fs' k k' := by
  obtain ⟨hgrows, hv⟩ := L.load hm.related hl
  have hrun (l : Literal) (m : Machine) : (literalValue l).run m =
      .ok (m.heap.literal l).1 { m with heap := (m.heap.literal l).2 } := by
    cases l <;> rfl
  rw [Parallel, hrun, hrun, hm.heap, hm.heap']
  exact .ok ⟨_, _, hv, hm.withHeap hgrows⟩

theorem parallel_sum (L : C.Lawful) (ha : C.value h h' a a') (hb : C.value h h' b b') :
    Parallel C.Alike (sum a b) (sum a' b') m m' fun v v' k k' =>
      ∃ g g', C.value g g' v v' ∧ C.Abreast g g' fs fs' k k' := by
  have hstandsa := L.stands hm.related ha
  have hstandsb := L.stands hm.related hb
  by_cases hobjects : (a.isObject && b.isObject) = false
  · -- not both are objects, and then on the other side neither
    have hobjects' : (a'.isObject && b'.isObject) = false := by
      cases hstandsa <;> cases hstandsb <;> exact hobjects
    have hadd : a'.add b' = a.add b := by
      rw [← Value.add_blank, hstandsa.blank_eq, hstandsb.blank_eq, Value.add_blank]
    rw [(sum_of_plain (m := m) hobjects).1, (sum_of_plain (m := m') hobjects').1, hadd]
    have hplain := Value.plainResult_add a b
    cases hr : a.add b with
    | ok v => exact .pure ⟨h, h', L.plain (hplain v hr), hm⟩
    | error e => exact .throw _ (hm.alike hfs)
  · obtain ⟨x, y, rfl, rfl⟩ : ∃ x y, a = .object x ∧ b = .object y := by
      cases a <;> cases b <;> simp [Value.isObject] at hobjects ⊢
    obtain ⟨x', rfl⟩ : ∃ x', a' = .object x' := by
      cases hstandsa <;> exact ⟨_, rfl⟩
    obtain ⟨y', rfl⟩ : ∃ y', b' = .object y' := by
      cases hstandsb <;> exact ⟨_, rfl⟩
    refine .get ?_
    rw [hm.heap, hm.heap', hstandsa.string?_eq, hstandsb.string?_eq]
    split
    · exact parallel_literalValue hm L (L.text _)
    · exact .throw _ (hm.alike hfs)

/-- Both outputs take the text, or both refuse it. -/
theorem parallel_print (text : String) (hgoing : C.Calls fs fs') :
    Parallel C.Alike (print text) (print text) m m' (Onward C.Machines) := by
  refine .get ?_
  rw [hm.sink]
  split
  · exact .pure (.printed (hm.machines hgoing))
  · exact .throw _ (hm.alike hfs)

/-- A native gives values that stand for each other, or the same fault. -/
theorem parallel_callNative (L : C.Lawful) {n : Native} (hn : C.native n) {base : Nat}
    (hbase : C.hidden ≤ base + 1) (arguments : Nat) :
    Stays C h h' fs fs' (callNative n base arguments) (callNative n base arguments) m m' Eq := by
  have happly : Stays C h h' fs fs' (applyNative n base) (applyNative n base) m m' Eq := by
    refine .get ?_
    have hanswer := L.answer hn hm.related (hm.stack.drop hbase)
    generalize n.call (m.stack.toList.drop (base + 1)) = r at hanswer ⊢
    generalize n.call (m'.stack.toList.drop (base + 1)) = r' at hanswer ⊢
    cases hanswer with
    | ok hv => exact (parallel_truncate hm base).next fun _ _ _ _ _ hm => parallel_push hfs hm hv
    | error message => exact .throw _ (hm.alike hfs)
  rw [callNative]
  split
  · exact happly
  · split
    · exact .throw _ (hm.alike hfs)
    · exact happly

/-- Functions that stand for each other are entered at places that do. -/
theorem parallel_enter (L : C.Lawful) {f f' : Function} (hf : C.function f f')
    (base arguments : Nat) :
    Parallel C.Alike (enter f base arguments) (enter f' base arguments) m m'
      (Pair Eq C.Machines) := by
  rw [enter, enter, L.arity hf]
  split
  · exact .throw _ (hm.alike hfs)
  · refine .get ?_
    rw [hm.frames, hm.frames', ← hfs.length_eq]
    split
    · exact .throw _ (hm.alike hfs)
    · refine .modify (.mk rfl ?_)
      rw [hm.frames, hm.frames']
      have hcalls : C.Calls (⟨f, 0, base⟩ :: fs) (⟨f', 0, base⟩ :: fs') :=
        .cons ⟨L.start hf, rfl⟩ hfs
      exact (hm.withFrames _ _).machines hcalls

/-- Calls of values that stand for each other enter such functions, take such results, or fail
alike. -/
theorem parallel_call (L : C.Lawful) (arguments : Nat)
    (hhidden : C.hidden ≤ m.stack.size - (arguments + 1)) :
    Parallel C.Alike (call arguments) (call arguments) m m' (Pair Eq C.Machines) := by
  refine .get ?_
  rw [hm.stack.size_eq]
  split
  · exact .throw _ (hm.alike hfs)
  · dsimp only
    have hcallee := hm.stack.values _ hhidden
    generalize m.stack[m.stack.size - (arguments + 1)]? = callee at hcallee ⊢
    generalize m'.stack[m.stack.size - (arguments + 1)]? = callee' at hcallee ⊢
    cases hcallee with
    | none => exact .throw _ (hm.alike hfs)
    | @some v v' hv =>
      cases L.stands hm.related hv with
      | plain hplain =>
        cases v with
        | object => cases hplain
        | nil | bool | int | float | vector | point => exact .throw _ (hm.alike hfs)
      | missing hx hx' =>
        dsimp only
        rw [hm.heap, hm.heap', hx, hx']
        exact .throw _ (hm.alike hfs)
      | object ho ho' hobjects =>
        dsimp only
        rw [hm.heap, hm.heap', ho, ho']
        cases hobjects with
        | string => exact .throw _ (hm.alike hfs)
        | native hn =>
          refine (parallel_callNative hfs hm L hn (by omega) arguments).mono fun _ _ _ _ hk => ?_
          cases hk with
          | mk heq hk => exact .mk heq (hk.machines (.of_waiting hfs))
        | function hf => exact parallel_enter hfs hm L hf _ arguments

end

/-! ## The innermost call -/

section

variable (hfs : List.Forall₂ C.Waiting (fr :: rest) (fr' :: rest'))
  (hm : C.Abreast h h' (fr :: rest) (fr' :: rest') m m')

include hm

theorem reads_frame : Reads C frame frame m m' fun a b => a = fr ∧ b = fr' := by
  refine .get ?_
  rw [hm.frames, hm.frames']
  exact .pure (.mk ⟨rfl, rfl⟩ ⟨rfl, rfl⟩)

include hfs

/-- Nothing pops the function of the innermost call, which may be all that is at the bottom. -/
theorem parallel_pop (L : C.Lawful) :
    Stays C h h' (fr :: rest) (fr' :: rest') pop pop m m' (C.value h h') := by
  refine .get ?_
  by_cases hfloor : m.stack.size ≤ floor m
  · simp only [hm.stack.size_eq, hm.floor_eq hfs, if_pos hfloor]
    have hthrow : Stays C h h' (fr :: rest) (fr' :: rest') (throw .stackUnderflow)
      (throw .stackUnderflow) m m' (C.value h h') := .throw _ (hm.alike hfs)
    cases m.stack.back? <;> cases m'.stack.back? <;> exact hthrow
  · have hhidden : C.hidden ≤ m.stack.size - 1 := by
      have hle := L.hidden_le
      rw [floor, hm.frames] at hfloor
      dsimp only at hfloor
      omega
    have hback := hm.stack.back hhidden
    simp only [hm.stack.size_eq, hm.floor_eq hfs, if_neg hfloor]
    generalize m.stack.back? = top at hback ⊢
    generalize m'.stack.back? = top' at hback ⊢
    cases hback with
    | none => exact .throw _ (hm.alike hfs)
    | some hv =>
      have hpop : Stays C h h' (fr :: rest) (fr' :: rest')
        (modify fun m => { m with stack := m.stack.pop })
        (modify fun m => { m with stack := m.stack.pop }) m m' Eq :=
        .modify (.mk rfl (hm.withStack hm.stack.pop))
      exact hpop.next fun _ _ _ _ _ hm => .pure (.mk hv hm)

/-- The literals that two instructions load stand for each other. -/
theorem reads_literal {index index' : Nat}
    (hindex : C.Loads fr.function fr'.function index index') :
    Reads C (literal index) (literal index') m m' C.literal := by
  refine (reads_frame hm).read fun a b hab => ?_
  obtain ⟨rfl, rfl⟩ := hab
  cases hindex with
  | literal hl hl' hliteral =>
    rw [hl, hl']
    exact .pure (.mk hliteral ⟨rfl, rfl⟩)
  | missing hn hn' =>
    rw [hn, hn']
    exact .throw _ (hm.alike hfs)

/-- The names that two instructions give are the same. -/
theorem reads_nameAt {index index' : Nat} (hindex : Names fr.function fr'.function index index') :
    Reads C (nameAt index) (nameAt index') m m' Eq := by
  cases hindex with
  | name x hx hx' =>
    have hliteral : Reads C (literal index) (literal index') m m' fun l l' => l = .string x ∧
      l' = .string x := by
      refine (reads_frame hm).read fun a b hab => ?_
      obtain ⟨rfl, rfl⟩ := hab
      rw [hx, hx']
      exact .pure (.mk ⟨rfl, rfl⟩ ⟨rfl, rfl⟩)
    refine hliteral.read fun l l' hl => ?_
    obtain ⟨rfl, rfl⟩ := hl
    exact .pure (.mk rfl ⟨rfl, rfl⟩)
  | other hother hother' =>
    -- both fail, over a literal that is no name or over none at all
    have hbad {m : Machine} {fr : Frame} {rest : List Frame} (hframes : m.frames = fr :: rest)
        (hx : ∀ x, fr.function.chunk.literal? index ≠ some (.string x)) :
        (nameAt index).run m = .error (.badLiteral index) m := by
      rw [nameAt, EStateM.run_bind, literal, EStateM.run_bind, run_frame_cons hframes]
      dsimp only
      cases hl : fr.function.chunk.literal? index with
      | none => rfl
      | some l =>
        cases l with
        | string x => exact absurd hl (hx x)
        | int | float | function => rfl
    rw [Reads, Parallel, hbad hm.frames hother, hbad hm.frames' hother']
    exact .error (hm.alike hfs)

/-- The values in a slot stand for each other, above what is hidden. -/
theorem reads_getSlot {slot : Nat} (hslot : C.hidden ≤ fr.base + slot) :
    Reads C (getSlot slot) (getSlot slot) m m' (C.value h h') := by
  refine (reads_frame hm).read fun a b hab => .get ?_
  obtain ⟨rfl, rfl⟩ := hab
  rw [(List.forall₂_cons.mp hfs).1.going.base]
  have hvalue := hm.stack.values _ hslot
  generalize m.stack[a.base + slot]? = value at hvalue ⊢
  generalize m'.stack[a.base + slot]? = value' at hvalue ⊢
  cases hvalue with
  | some hv => exact .pure (.mk hv ⟨rfl, rfl⟩)
  | none => exact .throw _ (hm.alike hfs)

theorem parallel_putSlot (hv : C.value h h' v v') (slot : Nat) :
    Stays C h h' (fr :: rest) (fr' :: rest') (putSlot slot v) (putSlot slot v') m m' Eq := by
  refine (reads_frame hm).read fun a b hab => .modify (.mk rfl ?_)
  obtain ⟨rfl, rfl⟩ := hab
  rw [(List.forall₂_cons.mp hfs).1.going.base]
  exact hm.withStack (hm.stack.set hv _)

/-- An operator that looks at no objects gives the same on both sides. -/
theorem parallel_unary (L : C.Lawful) {f : Value → Except OperandError Value}
    (hf : ∀ a, f a.blank = f a) (hplain : ∀ a, PlainResult (f a)) :
    Stays C h h' (fr :: rest) (fr' :: rest') (unary f) (unary f) m m' Eq := by
  refine (parallel_pop hfs hm L).next fun a a' k k' ha hk => ?_
  have heq : f a' = f a := by rw [← hf, (L.stands hk.related ha).blank_eq, hf]
  rw [heq]
  exact parallel_pushResult hfs hk L (hplain a)

theorem parallel_binary (L : C.Lawful) {f : Value → Value → Except OperandError Value}
    (hf : ∀ a b, f a.blank b.blank = f a b) (hplain : ∀ a b, PlainResult (f a b)) :
    Stays C h h' (fr :: rest) (fr' :: rest') (binary f) (binary f) m m' Eq := by
  refine (parallel_pop hfs hm L).next fun b b' k k' hb hk => ?_
  refine (parallel_pop hfs hk L).next fun a a' j j' ha hj => ?_
  have heq : f a' b' = f a b := by
    rw [← hf, (L.stands hj.related ha).blank_eq, (L.stands hj.related hb).blank_eq, hf]
  rw [heq]
  exact parallel_pushResult hfs hj L (hplain a b)

/-- The innermost call ends, and the one below goes on behind its call. -/
theorem parallel_leave (L : C.Lawful) : Parallel C.Alike leave leave m m' (Onward C.Machines) := by
  refine (parallel_pop hfs hm L).next fun v v' k k' hv hk => .get ?_
  obtain ⟨hfr, hrest⟩ := List.forall₂_cons.mp hfs
  rw [hk.frames, hk.frames']
  dsimp only
  rw [hfr.going.base]
  have hdrop : Stays C h h' rest rest' (modify fun m => { m with frames := rest })
    (modify fun m => { m with frames := rest' }) k k' Eq := .modify (.mk rfl (hk.withFrames _ _))
  refine hdrop.next fun _ _ _ _ _ hm => (parallel_truncate hm fr.base).next fun _ _ _ _ _ hm => ?_
  cases hrest with
  | nil => exact .pure (.finished (hm.machines .nil))
  | cons hcall hlower =>
    exact (parallel_push (.cons hcall hlower) hm hv).next fun _ _ _ _ _ hm =>
      .pure (.next (hm.machines (.of_waiting (.cons hcall hlower))))

/-- The cursors move to places from which both functions go on in the same way. -/
theorem parallel_move {cursor cursor' : Nat}
    (hcursor : C.place fr.function cursor fr'.function cursor') :
    Parallel C.Alike (do goto cursor; return .next) (do goto cursor'; return .next) m m'
      (Onward C.Machines) := by
  obtain ⟨hfr, hrest⟩ := List.forall₂_cons.mp hfs
  have hgoto : Parallel C.Alike (goto cursor) (goto cursor') m m' (Pair Eq C.Machines) := by
    refine .modify (.mk rfl ?_)
    rw [hm.frames, hm.frames']
    have hcalls : C.Calls ({ fr with cursor := cursor } :: rest)
      ({ fr' with cursor := cursor' } :: rest') :=
      .cons ⟨hcursor, hfr.going.base⟩ hrest
    exact (hm.withFrames _ _).machines hcalls
  exact hgoto.next fun _ _ _ _ _ hk => .pure (.next hk)

/-- What a script reads from two literals that stand for each other. -/
theorem parallel_pushLiteral (L : C.Lawful) {index index' : Nat}
    (hindex : C.Loads fr.function fr'.function index index') :
    Parallel C.Alike (do push (← literalValue (← literal index)); return .next)
      (do push (← literalValue (← literal index')); return .next) m m' (Onward C.Machines) := by
  refine (reads_literal hfs hm hindex).read fun l l' hl => (parallel_literalValue hm L hl).bind ?_
  rintro v v' k k' ⟨g, g', hv, hk⟩
  exact (parallel_push hfs hk hv).next fun _ _ _ _ _ hm =>
    .pure (.next (hm.machines (.of_waiting hfs)))

end

/-! ## Instructions -/

section

variable (hfs : List.Forall₂ C.Waiting (fr :: rest) (fr' :: rest'))
  (hm : C.Abreast h h' (fr :: rest) (fr' :: rest') m m')

include hfs hm

/-- An instruction that names no literal, is no pause and no jump. -/
theorem parallel_straight (L : C.Lawful) {instruction : Instruction} (hyield : instruction ≠ .yield)
    (hjump : instruction.isJump = false) (hliteral : instruction.literal? = none)
    (hspares : C.Spares fr.base m.stack.size instruction) :
    Parallel C.Alike (execute instruction) (execute instruction) m m' (Onward C.Machines) := by
  have hneeds := hspares.needs
  -- what leaves heaps and calls alone goes on with the next instruction
  have done {x y : Exec Unit} {k k' : Machine}
    (hxy : Stays C h h' (fr :: rest) (fr' :: rest') x y k k' Eq) :
      Parallel C.Alike (do x; return .next) (do y; return .next) k k' (Onward C.Machines) :=
    hxy.next fun _ _ _ _ _ hk => .pure (.next (hk.machines (.of_waiting hfs)))
  cases instruction with
  | nil | yes | no => exact done (parallel_push hfs hm (L.plain rfl))
  | pop =>
    have hpop : Stays C h h' (fr :: rest) (fr' :: rest') (discard pop) (discard pop) m m' Eq :=
      (parallel_pop hfs hm L).next fun _ _ _ _ _ hk => .pure (.mk rfl hk)
    exact done hpop
  | getLocal slot =>
    exact (reads_getSlot hfs hm (hspares.slots slot rfl)).read fun _ _ hv =>
      done (parallel_push hfs hm hv)
  | setLocal slot =>
    have hhidden : C.hidden ≤ m.stack.size - 1 := by
      rw [Instruction.needs] at hneeds
      omega
    refine (reads_peek hfs hm hhidden).read fun v v' hv => ?_
    have hslot : Reads C (discard (getSlot slot)) (discard (getSlot slot)) m m' Eq :=
      (reads_getSlot hfs hm (hspares.slots slot rfl)).read fun _ _ _ => .pure (.mk rfl ⟨rfl, rfl⟩)
    exact hslot.read fun _ _ _ => done (parallel_putSlot hfs hm hv slot)
  | getMember member =>
    exact done (parallel_unary hfs hm L (·.member_blank member) (·.plainResult_member member))
  | not => exact done (parallel_unary hfs hm L Value.not_blank Value.plainResult_not)
  | negate => exact done (parallel_unary hfs hm L Value.negate_blank Value.plainResult_negate)
  | setLocalMember slot member =>
    refine (parallel_pop hfs hm L).next fun b b' k k' hb hk => ?_
    refine (reads_getSlot hfs hk (hspares.slots slot rfl)).read fun a a' ha => ?_
    -- setting a member looks at neither object
    have heq : a'.setMember member b' = a.setMember member b := by
      rw [← Value.setMember_blank, (L.stands hk.related ha).blank_eq,
        (L.stands hk.related hb).blank_eq, Value.setMember_blank]
    rw [heq]
    refine (reads_operand hfs hk _).read fun p p' hp => ?_
    obtain ⟨rfl, hr⟩ := hp
    have hnew : C.value h h' p'.1 p'.1 := L.plain (Value.plain_of_setMember hr)
    exact (parallel_putSlot hfs hk hnew slot).next fun _ _ _ _ _ hk =>
      done (parallel_push hfs hk (L.plain rfl))
  | equal =>
    refine (parallel_pop hfs hm L).next fun b b' k k' hb hk => ?_
    refine (parallel_pop hfs hk L).next fun a a' j j' ha hj => .get ?_
    rw [hj.heap, hj.heap', (L.stands hj.related ha).equal_eq L (L.stands hj.related hb)]
    exact done (parallel_push hfs hj (L.plain rfl))
  | greater =>
    exact done (parallel_binary hfs hm L Value.greater_blank fun _ _ =>
      plainResult_compareWith _ _ _ _ _)
  | less =>
    exact done (parallel_binary hfs hm L Value.less_blank fun _ _ =>
      plainResult_compareWith _ _ _ _ _)
  | subtract =>
    exact done (parallel_binary hfs hm L Value.subtract_blank Value.plainResult_subtract)
  | multiply =>
    exact done (parallel_binary hfs hm L Value.multiply_blank Value.plainResult_multiply)
  | divide => exact done (parallel_binary hfs hm L Value.divide_blank Value.plainResult_divide)
  | add =>
    refine (parallel_pop hfs hm L).next fun b b' k k' hb hk => ?_
    refine (parallel_pop hfs hk L).next fun a a' j j' ha hj => (parallel_sum hfs hj L ha hb).bind ?_
    rintro v v' i i' ⟨g, g', hv, hi⟩
    exact (parallel_push hfs hi hv).next fun _ _ _ _ _ hk =>
      .pure (.next (hk.machines (.of_waiting hfs)))
  | print =>
    refine (parallel_pop hfs hm L).next fun v v' k k' hv hk => .get ?_
    have hdisplay : k'.display v' = k.display v := by
      rw [Machine.display, Machine.display, hk.heap, hk.heap',
        (L.stands hk.related hv).display_eq L]
    rw [hdisplay]
    exact parallel_print hfs hk _ (.of_waiting hfs)
  | call arguments =>
    have hhidden : C.hidden ≤ m.stack.size - (arguments + 1) := by
      rw [Instruction.needs] at hneeds
      omega
    exact (parallel_call hfs hm L arguments hhidden).next fun _ _ _ _ _ hk => .pure (.next hk)
  | ret => exact parallel_leave hfs hm L
  | stop =>
    have hstop : Parallel C.Alike (modify fun m => { m with frames := [], stack := #[] })
        (modify fun m => { m with frames := [], stack := #[] }) m m' (Pair Eq C.Machines) := by
      have hempty : C.Stacks h h' #[] #[] := ⟨rfl, fun _ _ => .none⟩
      exact .modify (.mk rfl (((hm.withStack hempty).withFrames [] []).machines .nil))
    exact hstop.next fun _ _ _ _ _ hk => .pure (.finished hk)
  | yield => exact absurd rfl hyield
  | jump | jumpIfFalse | loop => cases hjump
  | literal | defineGlobal | getGlobal | setGlobal | setGlobalMember => cases hliteral

/-- Instructions that do the same, after the cursors have moved past them. -/
theorem parallel_execute (L : C.Lawful) {instruction instruction' : Instruction}
    (hyield : instruction ≠ .yield)
    (hmatches : C.Matches fr.function fr.cursor fr'.function fr'.cursor instruction instruction')
    (hspares : C.Spares fr.base m.stack.size instruction) :
    Parallel C.Alike (execute instruction) (execute instruction') m m' (Onward C.Machines) := by
  have hneeds := hspares.needs
  have done {x y : Exec Unit} {k k' : Machine}
    (hxy : Stays C h h' (fr :: rest) (fr' :: rest') x y k k' Eq) :
      Parallel C.Alike (do x; return .next) (do y; return .next) k k' (Onward C.Machines) :=
    hxy.next fun _ _ _ _ _ hk => .pure (.next (hk.machines (.of_waiting hfs)))
  cases hmatches with
  | same hjump hliteral => exact parallel_straight hfs hm L hyield hjump hliteral hspares
  | literal hindex => exact parallel_pushLiteral hfs hm L hindex
  | defineGlobal hindex =>
    refine (reads_nameAt hfs hm hindex).read fun name _ hname =>
      (parallel_pop hfs hm L).next fun _ _ _ _ hv hk => ?_
    obtain rfl := hname
    exact done (parallel_putGlobal hk hv name)
  | getGlobal hindex =>
    refine (reads_nameAt hfs hm hindex).read fun name _ hname => ?_
    obtain rfl := hname
    exact (reads_getGlobal hfs hm name).read fun _ _ hv => done (parallel_push hfs hm hv)
  | setGlobal hindex =>
    have hhidden : C.hidden ≤ m.stack.size - 1 := by
      rw [Instruction.needs] at hneeds
      omega
    refine (reads_nameAt hfs hm hindex).read fun name _ hname =>
      (reads_peek hfs hm hhidden).read fun v v' hv => ?_
    obtain rfl := hname
    have hglobal : Reads C (discard (getGlobal name)) (discard (getGlobal name)) m m' Eq :=
      (reads_getGlobal hfs hm name).read fun _ _ _ => .pure (.mk rfl ⟨rfl, rfl⟩)
    exact hglobal.read fun _ _ _ => done (parallel_putGlobal hm hv name)
  | setGlobalMember member hindex =>
    refine (reads_nameAt hfs hm hindex).read fun name _ hname =>
      (parallel_pop hfs hm L).next fun b b' k k' hb hk => ?_
    obtain rfl := hname
    refine (reads_getGlobal hfs hk name).read fun a a' ha => ?_
    -- setting a member does not look at which objects the two values are
    have heq : a'.setMember member b' = a.setMember member b := by
      rw [← Value.setMember_blank, (L.stands hk.related ha).blank_eq,
        (L.stands hk.related hb).blank_eq, Value.setMember_blank]
    rw [heq]
    refine (reads_operand hfs hk _).read fun p p' hp => ?_
    obtain ⟨rfl, hr⟩ := hp
    have hnew : C.value h h' p'.1 p'.1 := L.plain (Value.plain_of_setMember hr)
    exact (parallel_putGlobal hk hnew name).next fun _ _ _ _ _ hk =>
      done (parallel_push hfs hk (L.plain rfl))
  | jump hplace =>
    refine (reads_frame hm).read fun a b hab => ?_
    obtain ⟨rfl, rfl⟩ := hab
    exact parallel_move hfs hm hplace
  | jumpIfFalse hplace =>
    have hhidden : C.hidden ≤ m.stack.size - 1 := by
      rw [Instruction.needs] at hneeds
      omega
    refine (reads_peek hfs hm hhidden).read fun v v' hv => ?_
    simp only [(L.stands hm.related hv).false_iff]
    split
    · refine (reads_frame hm).read fun a b hab => ?_
      obtain ⟨rfl, rfl⟩ := hab
      exact parallel_move hfs hm hplace
    · exact .pure (.next (hm.machines (.of_waiting hfs)))
  | loop hstart hplace =>
    refine (reads_frame hm).read fun a b hab => ?_
    obtain ⟨rfl, rfl⟩ := hab
    -- a loop that would leave the code fails with the name of its function, which is the same
    have hname : b.function.displayName = a.function.displayName := by
      rw [Function.displayName, Function.displayName]
      exact congrArg (Option.getD · _) (L.traced (List.forall₂_cons.mp hfs).1.shown)
    rw [hname]
    split
    · next hlt =>
      rw [if_pos (hstart.mp hlt)]
      exact .throw _ (hm.alike hfs)
    · next hlt =>
      rw [if_neg fun hlt' => hlt (hstart.mpr hlt')]
      exact parallel_move hfs hm (hplace (Nat.le_of_not_lt hlt))

end

/-- Machines that execute instructions that do the same take the same step. -/
theorem parallel_step (L : C.Lawful) (hm : C.Abreast h h' (fr :: rest) (fr' :: rest') m m')
    {p p' : Placed} (hp : fr.function.chunk.code.toList[fr.cursor]? = some p)
    (hp' : fr'.function.chunk.code.toList[fr'.cursor]? = some p') (hyield : p.instruction ≠ .yield)
    (hnext : C.Waiting { fr with cursor := fr.cursor + 1 } { fr' with cursor := fr'.cursor + 1 })
    (hrest : List.Forall₂ C.Waiting rest rest')
    (hmatches : C.Matches fr.function (fr.cursor + 1) fr'.function (fr'.cursor + 1) p.instruction
      p'.instruction)
    (hspares : C.Spares fr.base m.stack.size p.instruction) :
    Parallel C.Alike step step m m' (Onward C.Machines) := by
  rw [Parallel, run_step hm.frames (Chunk.instruction?_of_getElem? hp),
    run_step hm.frames' (Chunk.instruction?_of_getElem? hp')]
  exact parallel_execute (.cons hnext hrest) (hm.withFrames _ _) L hyield hmatches hspares

end

end Exec

/-! ## Runs -/

namespace Machine

section

variable {m k : Machine} (n : Nat) (before : String)

theorem interpret_next (h : Exec.step.run m = .ok .next k) :
    interpret (n + 1) m before = interpret n k before := by
  rw [interpret, h]

theorem interpret_printed {text : String} (h : Exec.step.run m = .ok (.printed text) k) :
    interpret (n + 1) m before = interpret n k (before ++ text) := by
  rw [interpret, h]

theorem interpret_exit {e : Exit} (h : Exec.step.run m = .ok (.exit e) k) :
    interpret (n + 1) m before = ⟨.exited e, before, k.exited e⟩ := by
  rw [interpret, h]

theorem interpret_failed {e : Fault} (h : Exec.step.run m = .error e k) :
    interpret (n + 1) m before = ⟨.faulted ⟨e, k.trace⟩, before, k.failed ⟨e, k.trace⟩⟩ := by
  rw [interpret, h]

end

end Machine

end EntityScript
