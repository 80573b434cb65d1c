/-
# Machines that correspond

Two machines can go through the same steps although they hold different objects and run different
code.  What it takes is that the values of one stand for those of the other, and so do the literals
and the places in the code (`Correspondence`), in a way that the heap and the natives respect
(`Correspondence.Lawful`).

Values that stand for each other are displayed in the same way, are equal to the same values and do
the same as operands (`Correspondence.Stands`).  The stacks are related value by value, but for a
value at the bottom that nothing looks at.
-/
import EntityScript.Machine.Run
import EntityScript.Proofs.Code.Depth
import EntityScript.Proofs.Code.Jumps
import EntityScript.Proofs.Machine.Instructions
import EntityScript.Proofs.Value.Plain
import Mathlib.Data.List.Forall2

namespace EntityScript

/-- What a trace says about a call. -/
def Frame.shown (fr : Frame) : TraceFrame :=
  ⟨fr.function.name, (fr.function.chunk.line? (fr.cursor - 1)).getD 0⟩

/-- What of one machine stands for what of another. -/
structure Correspondence where
  /-- Functions that can be called in place of each other. -/
  function : Function → Function → Prop
  /-- Natives that can be called with values that stand for each other. -/
  native : Native → Prop
  literal : Literal → Literal → Prop
  /-- Places from which two functions go on in the same way. -/
  place : Function → Nat → Function → Nat → Prop
  heap : Heap → Heap → Prop
  value : Heap → Heap → Value → Value → Prop
  trace : TraceFrame → TraceFrame → Prop
  /-- The number of values at the bottom of the stack that nothing looks at. -/
  hidden : Nat

namespace Correspondence

/-- Objects that are the same thing to a script. -/
inductive Objects (C : Correspondence) : Object → Object → Prop where
  | string (text : String) : Objects C (.string text) (.string text)
  | native {n : Native} : C.native n → Objects C (.native n) (.native n)
  | function {f f' : Function} : C.function f f' → Objects C (.function f) (.function f')

/-- Values that are the same to a script: no objects, references to objects that are the same, or
the same reference to nothing. -/
inductive Stands (C : Correspondence) (h h' : Heap) : Value → Value → Prop where
  | plain {v : Value} : v.isObject = false → Stands C h h' v v
  | missing {ref : Ref} : h.get? ref = none → h'.get? ref = none →
    Stands C h h' (.object ref) (.object ref)
  | object {ref ref' : Ref} {o o' : Object} : h.get? ref = some o → h'.get? ref' = some o' →
    C.Objects o o' →
    Stands C h h' (.object ref) (.object ref')

/-- Heaps that come after two others, and in which values still stand for each other. -/
structure Grows (C : Correspondence) (h h' k k' : Heap) : Prop where
  heap : C.heap k k'
  value : ∀ v v', C.value h h' v v' → C.value k k' v v'

/-- Values that may be missing still stand for each other. -/
theorem Grows.rel {C : Correspondence} {h h' k k' : Heap} (hgrows : C.Grows h h' k k')
    {v v' : Option Value} (hv : Option.Rel (C.value h h') v v') :
    Option.Rel (C.value k k') v v' := by
  cases hv with
  | none => exact .none
  | some hv => exact .some (hgrows.value _ _ hv)

/-- Results of a native that are the same. -/
inductive Answers (C : Correspondence) (h h' : Heap) :
    Except String Value → Except String Value → Prop where
  | ok {v v' : Value} : C.value h h' v v' → Answers C h h' (.ok v) (.ok v')
  | error (message : String) : Answers C h h' (.error message) (.error message)

/-- What has to hold for machines that correspond to go through the same steps. -/
structure Lawful (C : Correspondence) : Prop where
  id_iff : ∀ {f f' g g'}, C.function f f' → C.function g g' → (f'.id = g'.id ↔ f.id = g.id)
  name : ∀ {f f'}, C.function f f' → f'.name = f.name
  arity : ∀ {f f'}, C.function f f' → f'.arity = f.arity
  start : ∀ {f f'}, C.function f f' → C.place f 0 f' 0
  traced : ∀ {a b}, C.trace a b → b.function = a.function
  stands : ∀ {h h' v v'}, C.heap h h' → C.value h h' v v' → C.Stands h h' v v'
  plain : ∀ {h h' v}, v.isObject = false → C.value h h' v v
  text : ∀ text, C.literal (.string text) (.string text)
  load : ∀ {h h' l l'}, C.heap h h' → C.literal l l' →
    C.Grows h h' (h.literal l).2 (h'.literal l').2 ∧
      C.value (h.literal l).2 (h'.literal l').2 (h.literal l).1 (h'.literal l').1
  answer : ∀ {h h' n vs vs'}, C.native n → C.heap h h' → List.Forall₂ (C.value h h') vs vs' →
    C.Answers h h' (n.call vs) (n.call vs')
  hidden_le : C.hidden ≤ 1

variable {C : Correspondence} {h h' : Heap} {a a' b b' v v' : Value}

/-! ## Values -/

theorem Objects.string?_eq {o o' : Object} (ho : C.Objects o o') : o'.string? = o.string? := by
  cases ho <;> rfl

theorem Lawful.text_eq (L : C.Lawful) {o o' : Object} (ho : C.Objects o o') : o'.text = o.text := by
  cases ho with
  | string | native => rfl
  | function hf => rw [Object.text, Object.text, Function.text, Function.text, L.name hf]

/-- Objects are the same to each other when those that they stand for are. -/
theorem Lawful.same_eq (L : C.Lawful) {o o' u u' : Object} (ho : C.Objects o o')
    (hu : C.Objects u u') :
    o'.same u' = o.same u := by
  cases ho with
  | string | native => cases hu <;> rfl
  | function hf =>
    cases hu with
    | string | native => rfl
    | function hg =>
      rw [Object.same, Object.same, Bool.eq_iff_iff, beq_iff_eq, beq_iff_eq, L.id_iff hf hg]

namespace Stands

/-- Values that stand for each other are the same but for the objects they refer to. -/
theorem blank_eq (hv : C.Stands h h' v v') : v'.blank = v.blank := by
  cases hv <;> rfl

theorem false_iff (hv : C.Stands h h' v v') : v' = .bool false ↔ v = .bool false := by
  cases hv with
  | plain => exact Iff.rfl
  | missing | object => exact ⟨nofun, nofun⟩

/-- What two references lead to. -/
theorem string?_eq {x x' : Ref} (hv : C.Stands h h' (.object x) (.object x')) :
    (h'.get? x').bind Object.string? = (h.get? x).bind Object.string? := by
  cases hv with
  | plain hplain => cases hplain
  | missing hx hx' => rw [hx, hx']
  | object ho ho' hobjects =>
    rw [ho, ho']
    exact hobjects.string?_eq

/-- Values that stand for each other are displayed in the same way. -/
theorem display_eq (L : C.Lawful) (hv : C.Stands h h' v v') : h'.display v' = h.display v := by
  cases hv with
  | plain hplain =>
    cases v with
    | object => cases hplain
    | nil | bool | int | float | vector | point => rfl
  | missing hx hx' => rw [Heap.display, Heap.display, hx, hx']
  | object ho ho' hobjects =>
    rw [Heap.display, Heap.display, ho, ho']
    exact L.text_eq hobjects

/-- Values are equal when those that stand for them are. -/
theorem equal_eq (L : C.Lawful) (ha : C.Stands h h' a a') (hb : C.Stands h h' b b') :
    h'.equal a' b' = h.equal a b := by
  cases ha with
  | plain hplain =>
    cases a with
    | object => cases hplain
    | nil | bool | int | float | vector | point => cases hb <;> rfl
  | missing hx hx' =>
    cases hb with
    | plain hplain =>
      cases b with
      | object => cases hplain
      | nil | bool | int | float | vector | point => rfl
    | missing | object => rw [Heap.equal, Heap.equal, hx, hx']
  | object ho ho' hobjects =>
    cases hb with
    | plain hplain =>
      cases b with
      | object => cases hplain
      | nil | bool | int | float | vector | point => rfl
    | missing hy hy' => rw [Heap.equal, Heap.equal, hy, hy', ho, ho']
    | object hu hu' hobjects' =>
      rw [Heap.equal, Heap.equal, ho, ho', hu, hu']
      exact L.same_eq hobjects hobjects'

end Stands

/-! ## Stacks -/

/-- Stacks whose values stand for each other, but for those at the bottom. -/
structure Stacks (C : Correspondence) (h h' : Heap) (s s' : Array Value) : Prop where
  size_eq : s'.size = s.size
  values : ∀ i, C.hidden ≤ i → Option.Rel (C.value h h') s[i]? s'[i]?

namespace Stacks

variable {s s' : Array Value}

/-- What is on top of the two stacks stands for each other, unless it is hidden. -/
theorem back (hs : C.Stacks h h' s s') (hhidden : C.hidden ≤ s.size - 1) :
    Option.Rel (C.value h h') s.back? s'.back? := by
  rw [Array.back?_eq_getElem?, Array.back?_eq_getElem?, hs.size_eq]
  exact hs.values _ hhidden

/-- Values that stand for each other are put on stacks that do. -/
theorem push (hs : C.Stacks h h' s s') (hv : C.value h h' v v') :
    C.Stacks h h' (s.push v) (s'.push v') := by
  refine ⟨by rw [Array.size_push, Array.size_push, hs.size_eq], fun i hi => ?_⟩
  rw [Array.getElem?_push, Array.getElem?_push, hs.size_eq]
  split
  · exact .some hv
  · exact hs.values i hi

/-- The stacks still stand for each other without their topmost values. -/
theorem pop (hs : C.Stacks h h' s s') : C.Stacks h h' s.pop s'.pop := by
  refine ⟨by rw [Array.size_pop, Array.size_pop, hs.size_eq], fun i hi => ?_⟩
  rw [Array.getElem?_pop, Array.getElem?_pop, hs.size_eq]
  split
  · exact hs.values i hi
  · exact .none

/-- A value may be replaced on both sides. -/
theorem set (hs : C.Stacks h h' s s') (hv : C.value h h' v v') (i : Nat) :
    C.Stacks h h' (s.setIfInBounds i v) (s'.setIfInBounds i v') := by
  refine ⟨by rw [Array.size_setIfInBounds, Array.size_setIfInBounds, hs.size_eq], fun j hj => ?_⟩
  rw [Array.getElem?_setIfInBounds, Array.getElem?_setIfInBounds, hs.size_eq]
  split
  · split
    · exact .some hv
    · exact .none
  · exact hs.values j hj

/-- The stacks may be cut to the same size. -/
theorem take (hs : C.Stacks h h' s s') (n : Nat) : C.Stacks h h' (s.take n) (s'.take n) := by
  refine ⟨by simp [hs.size_eq], fun i hi => ?_⟩
  rw [Array.take_eq_extract, Array.take_eq_extract, Array.getElem?_extract,
    Array.getElem?_extract, hs.size_eq]
  split
  · rw [Nat.zero_add]
    exact hs.values i hi
  · exact .none

/-- The values above a place stand for each other, one by one. -/
theorem drop (hs : C.Stacks h h' s s') {n : Nat} (hn : C.hidden ≤ n) :
    List.Forall₂ (C.value h h') (s.toList.drop n) (s'.toList.drop n) := by
  rw [List.forall₂_iff_get]
  refine ⟨by simp [hs.size_eq], fun i hi hi' => ?_⟩
  have hvalues := hs.values (n + i) (Nat.le_add_right_of_le hn)
  rw [← Array.getElem?_toList, ← Array.getElem?_toList, ← List.getElem?_drop, ← List.getElem?_drop,
    List.getElem?_eq_getElem hi, List.getElem?_eq_getElem hi'] at hvalues
  cases hvalues with
  | some hv => exact hv

theorem mono {k k' : Heap} (hs : C.Stacks h h' s s') (hgrows : C.Grows h h' k k') :
    C.Stacks k k' s s' :=
  ⟨hs.size_eq, fun i hi => hgrows.rel (hs.values i hi)⟩

end Stacks

/-! ## Calls -/

/-- Calls that go on in the same way. -/
structure Going (C : Correspondence) (fr fr' : Frame) : Prop where
  place : C.place fr.function fr.cursor fr'.function fr'.cursor
  base : fr'.base = fr.base

/-- Calls that go on in the same way, behind instructions that a trace shows as the same. -/
structure Waiting (C : Correspondence) (fr fr' : Frame) : Prop where
  going : C.Going fr fr'
  shown : C.trace fr.shown fr'.shown

/-- The active calls of two machines. -/
inductive Calls (C : Correspondence) : List Frame → List Frame → Prop where
  | nil : Calls C [] []
  | cons {fr fr' : Frame} {rest rest' : List Frame} :
    C.Going fr fr' → List.Forall₂ C.Waiting rest rest' →
    Calls C (fr :: rest) (fr' :: rest')

/-- Calls that wait in the same way go on in the same way. -/
theorem Calls.of_waiting {fs fs' : List Frame} (hfs : List.Forall₂ C.Waiting fs fs') :
    C.Calls fs fs' := by
  cases hfs with
  | nil => exact .nil
  | cons hfr hrest => exact .cons hfr.going hrest

/-! ## Machines -/

/-- Machines with the given heaps and calls, whose values stand for each other. -/
structure Abreast (C : Correspondence) (h h' : Heap) (fs fs' : List Frame) (m m' : Machine) :
    Prop where
  heap : m.heap = h
  heap' : m'.heap = h'
  related : C.heap h h'
  stack : C.Stacks h h' m.stack m'.stack
  globals : ∀ x : String, Option.Rel (C.value h h') m.globals[x]? m'.globals[x]?
  sink : m'.sink = m.sink
  frames : m.frames = fs
  frames' : m'.frames = fs'

/-- Machines that go on in the same way. -/
def Machines (C : Correspondence) (m m' : Machine) : Prop :=
  ∃ fs fs', C.Calls fs fs' ∧ C.Abreast m.heap m'.heap fs fs' m m'

/-- Machines that show the same, with traces that are the same. -/
structure Alike (C : Correspondence) (m m' : Machine) : Prop where
  trace : List.Forall₂ C.trace m.trace m'.trace
  related : C.heap m.heap m'.heap
  globals : ∀ x : String, Option.Rel (C.value m.heap m'.heap) m.globals[x]? m'.globals[x]?

/-- What a machine is said to be doing, and for which host it is, does not matter. -/
theorem Machines.congr {m m' j j' : Machine} (hm : C.Machines m m') (hstack : j.stack = m.stack)
    (hframes : j.frames = m.frames) (hglobals : j.globals = m.globals) (hheap : j.heap = m.heap)
    (hsink : j.sink = m.sink) (hstack' : j'.stack = m'.stack) (hframes' : j'.frames = m'.frames)
    (hglobals' : j'.globals = m'.globals) (hheap' : j'.heap = m'.heap)
    (hsink' : j'.sink = m'.sink) :
    C.Machines j j' := by
  obtain ⟨fs, fs', hcalls, hm⟩ := hm
  refine ⟨fs, fs', hcalls, rfl, rfl, ?_, ?_, ?_, ?_, hframes.trans hm.frames,
    hframes'.trans hm.frames'⟩
  · rw [hheap, hheap']
    exact hm.related
  · rw [hstack, hstack', hheap, hheap']
    exact hm.stack
  · rw [hglobals, hglobals', hheap, hheap']
    exact hm.globals
  · rw [hsink, hsink', hm.sink]

namespace Abreast

variable {fs fs' : List Frame} {m m' : Machine}

/-- Machines that wait in the same calls show the same. -/
theorem alike (hm : C.Abreast h h' fs fs' m m') (hfs : List.Forall₂ C.Waiting fs fs') :
    C.Alike m m' := by
  obtain ⟨rfl, rfl, hrelated, -, hglobals, -, rfl, rfl⟩ := hm
  refine ⟨?_, hrelated, hglobals⟩
  show List.Forall₂ C.trace (m.frames.map Frame.shown) (m'.frames.map Frame.shown)
  rw [List.forall₂_map_left_iff, List.forall₂_map_right_iff]
  exact hfs.imp fun _ _ hfr => hfr.shown

/-- Machines abreast whose calls go on in the same way do so themselves. -/
theorem machines (hm : C.Abreast h h' fs fs' m m') (hfs : C.Calls fs fs') : C.Machines m m' := by
  obtain ⟨rfl, rfl, -⟩ := id hm
  exact ⟨fs, fs', hfs, hm⟩

theorem withStack (hm : C.Abreast h h' fs fs' m m') {s s' : Array Value} (hs : C.Stacks h h' s s') :
    C.Abreast h h' fs fs' { m with stack := s } { m' with stack := s' } :=
  ⟨hm.heap, hm.heap', hm.related, hs, hm.globals, hm.sink, hm.frames, hm.frames'⟩

theorem withFrames (hm : C.Abreast h h' fs fs' m m') (gs gs' : List Frame) :
    C.Abreast h h' gs gs' { m with frames := gs } { m' with frames := gs' } :=
  ⟨hm.heap, hm.heap', hm.related, hm.stack, hm.globals, hm.sink, rfl, rfl⟩

theorem withHeap (hm : C.Abreast h h' fs fs' m m') {k k' : Heap} (hgrows : C.Grows h h' k k') :
    C.Abreast k k' fs fs' { m with heap := k } { m' with heap := k' } := by
  exact ⟨rfl, rfl, hgrows.heap, hm.stack.mono hgrows, fun x => hgrows.rel (hm.globals x),
    hm.sink, hm.frames, hm.frames'⟩

/-- A global may be set on both sides. -/
theorem withGlobal (hm : C.Abreast h h' fs fs' m m') (hv : C.value h h' v v') (name : String) :
    C.Abreast h h' fs fs' { m with globals := m.globals.insert name v }
      { m' with globals := m'.globals.insert name v' } := by
  refine ⟨hm.heap, hm.heap', hm.related, hm.stack, fun x => ?_, hm.sink, hm.frames, hm.frames'⟩
  dsimp only
  rw [Std.TreeMap.getElem?_insert, Std.TreeMap.getElem?_insert]
  split
  · exact .some hv
  · exact hm.globals x

/-- The windows of the two innermost calls begin at the same place. -/
theorem floor_eq (hm : C.Abreast h h' fs fs' m m') (hfs : List.Forall₂ C.Waiting fs fs') :
    Exec.floor m' = Exec.floor m := by
  rw [Exec.floor, Exec.floor, hm.frames, hm.frames']
  cases hfs with
  | nil => rfl
  | cons hfr _ => exact congrArg (· + 1) hfr.going.base

end Abreast

/-! ## Instructions -/

/-- A literal of one function and a literal of another that stand for each other; a number that
leads to no literal is the same in both. -/
inductive Loads (C : Correspondence) (f f' : Function) : Nat → Nat → Prop where
  | literal {index index' : Nat} {l l' : Literal} : f.chunk.literal? index = some l →
    f'.chunk.literal? index' = some l' → C.literal l l' → Loads C f f' index index'
  | missing {index : Nat} : f.chunk.literal? index = none → f'.chunk.literal? index = none →
    Loads C f f' index index

/-- The same name among the literals of two functions; a number that leads to no name is the same in
both. -/
inductive Names (f f' : Function) : Nat → Nat → Prop where
  | name {index index' : Nat} (x : String) : f.chunk.literal? index = some (.string x) →
    f'.chunk.literal? index' = some (.string x) → Names f f' index index'
  | other {index : Nat} : (∀ x, f.chunk.literal? index ≠ some (.string x)) →
    (∀ x, f'.chunk.literal? index ≠ some (.string x)) → Names f f' index index

/-- Instructions that do the same, where `i` and `i'` are the places behind them. -/
inductive Matches (C : Correspondence) (f : Function) (i : Nat) (f' : Function) (i' : Nat) :
    Instruction → Instruction → Prop where
  | same {instruction : Instruction} : instruction.isJump = false → instruction.literal? = none →
    Matches C f i f' i' instruction instruction
  | literal {index index' : Nat} : C.Loads f f' index index' →
    Matches C f i f' i' (.literal index) (.literal index')
  | defineGlobal {index index' : Nat} : Names f f' index index' →
    Matches C f i f' i' (.defineGlobal index) (.defineGlobal index')
  | getGlobal {index index' : Nat} : Names f f' index index' →
    Matches C f i f' i' (.getGlobal index) (.getGlobal index')
  | setGlobal {index index' : Nat} : Names f f' index index' →
    Matches C f i f' i' (.setGlobal index) (.setGlobal index')
  | setGlobalMember {index index' : Nat} (m : Member) : Names f f' index index' →
    Matches C f i f' i' (.setGlobalMember index m) (.setGlobalMember index' m)
  | jump {offset offset' : Nat} : C.place f (i + offset) f' (i' + offset') →
    Matches C f i f' i' (.jump offset) (.jump offset')
  | jumpIfFalse {offset offset' : Nat} : C.place f (i + offset) f' (i' + offset') →
    Matches C f i f' i' (.jumpIfFalse offset) (.jumpIfFalse offset')
  | loop {offset offset' : Nat} : (i < offset ↔ i' < offset') →
    (offset ≤ i → C.place f (i - offset) f' (i' - offset')) →
    Matches C f i f' i' (.loop offset) (.loop offset')

/-- An instruction does not look at the bottom of a stack of the given size, on which the window of
its call begins at `base`. -/
structure Spares (C : Correspondence) (base size : Nat) (instruction : Instruction) : Prop where
  needs : C.hidden + instruction.needs ≤ size + 1 ∨ C.hidden = 0
  slots : ∀ slot, instruction.slot? = some slot → C.hidden ≤ base + slot

end Correspondence

end EntityScript
