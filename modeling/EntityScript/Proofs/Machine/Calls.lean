/-
# What a step does to the calls

An instruction that succeeds goes on in the innermost call, takes the result of a native, enters a
function, leaves one, or ends the program (`Machine.Turn`).  Where it goes on, slot zero of the call
and all that lies below stay as they are: what an instruction takes lies above slot zero, and so
does every local that it can name.

An instruction that fails has done nothing to the calls but move past itself
(`Machine.Aligned.turns`).
-/
import EntityScript.Proofs.Machine.Reachability

namespace EntityScript

open Exec

namespace Machine

/-- What an instruction that succeeds makes of the calls `fr :: rest` and the values `s` of a
machine with the objects `h`: its signal, the calls and the values afterwards. -/
inductive Turn (h : Heap) (fr : Frame) (rest : List Frame) (s : List Value) :
    Instruction → Signal → List Frame → List Value → Prop where
  /-- The call goes on. -/
  | stays {instruction : Instruction} {signal : Signal} {t : List Value} (cursor : Nat) :
    (∀ n, instruction ≠ .call n) → signal ≠ .exit .finished → fr.base < t.length →
    t.take (fr.base + 1) = s.take (fr.base + 1) →
    Turn h fr rest s instruction signal ({ fr with cursor := cursor } :: rest) t
  /-- A native gives a result, which takes its place and that of its arguments. -/
  | answers {below arguments : List Value} {ref : Ref} {n : Native} {v : Value} :
    s = below ++ .object ref :: arguments → fr.base < below.length → h.get? ref = some (.native n) →
    n.call arguments = .ok v →
    Turn h fr rest s (.call arguments.length) .next ({ fr with cursor := fr.cursor + 1 } :: rest)
    (below ++ [v])
  /-- A function starts where it lies on the stack. -/
  | enters {below arguments : List Value} {ref : Ref} {g : Function} :
    s = below ++ .object ref :: arguments → fr.base < below.length →
    h.get? ref = some (.function g) →
    g.arity = arguments.length → rest.length + 1 < frameLimit →
    Turn h fr rest s (.call arguments.length) .next
      (⟨g, 0, below.length⟩ :: { fr with cursor := fr.cursor + 1 } :: rest) s
  /-- The top value takes the place of a function that comes to its end. -/
  | returns {t : List Value} {v : Value} : rest ≠ [] → s = t ++ [v] → fr.base < t.length →
    Turn h fr rest s .ret .next rest (s.take fr.base ++ [v])
  /-- The script itself comes to its end. -/
  | ends : rest = [] → Turn h fr rest s .ret (.exit .finished) [] []
  | stops : Turn h fr rest s .stop (.exit .finished) [] []

/-- What an instruction may come to, told by the calls and the stack. -/
def TurnsTo (h : Heap) (fr : Frame) (rest : List Frame) (s : List Value)
    (instruction : Instruction) :
    Except Fault (Signal × Machine) → Prop
  | .ok (signal, m') => Turn h fr rest s instruction signal m'.frames m'.stack.toList
  | .error _ => True

/-- What the instruction at the cursor comes to. -/
def Turns (m : Machine) (f : Function) (i base : Nat) (rest : List Frame) (s : List Value)
    (instruction : Instruction) : Prop :=
  ∃ r, Meets (Exec.execute instruction) (m.on (⟨f, i + 1, base⟩ :: rest) s) r ∧
    TurnsTo m.heap ⟨f, i, base⟩ rest s instruction r

variable {lib : Library} {m k : Machine} {f : Function} {i base : Nat} {rest : List Frame}
  {s t t' : List Value} {instruction : Instruction} {signal : Signal}

/-- The call goes on with what lay below the values that were taken. -/
theorem turnsTo_keep (hbase : base < t.length) (hs : t <+: s) (ht : t <+: t') (j : Nat)
    (hcall : ∀ n, instruction ≠ .call n) (hsignal : signal ≠ .exit .finished) :
    TurnsTo m.heap ⟨f, i, base⟩ rest s instruction
      (.ok (signal, k.on (⟨f, j, base⟩ :: rest) t')) := by
  obtain ⟨u, rfl⟩ := hs
  obtain ⟨w, rfl⟩ := ht
  refine .stays j hcall hsignal ?_ ?_
  · simp only [on_stack, List.length_append]
    omega
  · simp only [on_stack]
    rw [List.take_append_of_le_length hbase, List.take_append_of_le_length hbase]

/-! ## The instructions that stay in a call -/

/-- There is always slot zero. -/
theorem Aligned.base_lt (A : (m.on (⟨f, i, base⟩ :: rest) s).Aligned lib)
    (hi : f.chunk.instruction? i = some instruction) : base < s.length := by
  obtain ⟨body, hbalanced⟩ := A.balanced
  have hroom := hbalanced.room i instruction hi
  have hneeds : 1 ≤ instruction.needs := by cases instruction <;> simp [Instruction.needs]
  have hlen := A.length
  omega

/-- An instruction that only pushes a value, or only moves the cursor. -/
theorem turns_keep (A : (m.on (⟨f, i, base⟩ :: rest) s).Aligned lib)
    (hi : f.chunk.instruction? i = some instruction) {j : Nat} (ht : s <+: t')
    (hmeets : Meets (Exec.execute instruction) (m.on (⟨f, i + 1, base⟩ :: rest) s)
      (.ok (signal, k.on (⟨f, j, base⟩ :: rest) t')))
    (hcall : ∀ n, instruction ≠ .call n) (hsignal : signal ≠ .exit .finished) :
    Turns m f i base rest s instruction :=
  ⟨_, hmeets, turnsTo_keep (A.base_lt hi) (List.prefix_refl s) ht j hcall hsignal⟩

/-- A literal is put on the stack, on an object of its own if it is a function or a text. -/
theorem turns_literal (A : (m.on (⟨f, i, base⟩ :: rest) s).Aligned lib) {index : Nat}
    (hi : f.chunk.instruction? i = some (.literal index)) :
    Turns m f i base rest s (.literal index) := by
  obtain ⟨body, hbalanced⟩ := A.balanced
  obtain ⟨l, hl⟩ := hbalanced.names i _ hi
  have hknown : m.heap.Known lib m.host := A.heap
  obtain ⟨-, hx, -⟩ := hknown.literal (l := l) (by
    rintro g rfl
    exact A.running.1.literal (List.mem_of_getElem? hl))
  exact turns_keep A hi (List.prefix_append ..) (meets_literal hl hx) nofun nofun

/-- An operator with one operand. -/
theorem turns_unary (A : (m.on (⟨f, i, base⟩ :: rest) s).Aligned lib)
    (hi : f.chunk.instruction? i = some instruction) {op : Value → Except OperandError Value}
    (hexecute : Exec.execute instruction = (do unary op; return Signal.next))
    (hneeds : instruction.needs = 2) (hcall : ∀ n, instruction ≠ .call n) :
    Turns m f i base rest s instruction := by
  obtain ⟨t, u, rfl, hu, hbase, -⟩ := A.split hi (n := 1) (by omega)
  obtain ⟨a, rfl⟩ := List.length_eq_one_iff.mp hu
  rw [Turns, hexecute]
  refine ⟨_, meets_unary hbase, ?_⟩
  cases op a with
  | ok v => exact turnsTo_keep hbase (List.prefix_append ..) (List.prefix_append ..) _ hcall nofun
  | error e => trivial

/-- An operator with two operands. -/
theorem turns_binary (A : (m.on (⟨f, i, base⟩ :: rest) s).Aligned lib)
    (hi : f.chunk.instruction? i = some instruction)
    {op : Value → Value → Except OperandError Value}
    (hexecute : Exec.execute instruction = (do binary op; return Signal.next))
    (hneeds : instruction.needs = 3) (hcall : ∀ n, instruction ≠ .call n) :
    Turns m f i base rest s instruction := by
  obtain ⟨t, u, rfl, hu, hbase, -⟩ := A.split hi (n := 2) (by omega)
  obtain ⟨a, b, rfl⟩ := List.length_eq_two.mp hu
  rw [Turns, hexecute]
  refine ⟨_, meets_binary hbase, ?_⟩
  cases op a b with
  | ok v => exact turnsTo_keep hbase (List.prefix_append ..) (List.prefix_append ..) _ hcall nofun
  | error e => trivial

/-- A comparison of any two values goes on. -/
theorem turns_equal (A : (m.on (⟨f, i, base⟩ :: rest) s).Aligned lib)
    (hi : f.chunk.instruction? i = some .equal) : Turns m f i base rest s .equal := by
  obtain ⟨t, u, rfl, hu, hbase, -⟩ := A.split hi (n := 2) (Nat.le_refl 3)
  obtain ⟨a, b, rfl⟩ := List.length_eq_two.mp hu
  exact ⟨_, meets_equal hbase,
    turnsTo_keep hbase (List.prefix_append ..) (List.prefix_append ..) _ nofun nofun⟩

/-- An addition goes on, also if it makes a text. -/
theorem turns_add (A : (m.on (⟨f, i, base⟩ :: rest) s).Aligned lib)
    (hi : f.chunk.instruction? i = some .add) : Turns m f i base rest s .add := by
  obtain ⟨t, u, rfl, hu, hbase, -⟩ := A.split hi (n := 2) (Nat.le_refl 3)
  obtain ⟨a, b, rfl⟩ := List.length_eq_two.mp hu
  have hknown : m.heap.Known lib m.host := A.heap
  refine ⟨_, meets_add hbase (fun v heap h => (hknown.sum h).2.1), ?_⟩
  cases m.heap.sum a b with
  | ok p => exact turnsTo_keep hbase (List.prefix_append ..) (List.prefix_append ..) _ nofun nofun
  | error e => trivial

/-- The value that is dropped lies above slot zero. -/
theorem turns_pop (A : (m.on (⟨f, i, base⟩ :: rest) s).Aligned lib)
    (hi : f.chunk.instruction? i = some .pop) : Turns m f i base rest s .pop := by
  obtain ⟨t, u, rfl, hu, hbase, -⟩ := A.split hi (n := 1) (Nat.le_refl 2)
  obtain ⟨a, rfl⟩ := List.length_eq_one_iff.mp hu
  exact ⟨_, meets_pop hbase, turnsTo_keep hbase (List.prefix_append ..) (List.prefix_refl t) _
    nofun nofun⟩

/-- Printing goes on with a signal, or the output refuses the text. -/
theorem turns_print (A : (m.on (⟨f, i, base⟩ :: rest) s).Aligned lib)
    (hi : f.chunk.instruction? i = some .print) : Turns m f i base rest s .print := by
  obtain ⟨t, u, rfl, hu, hbase, -⟩ := A.split hi (n := 1) (Nat.le_refl 2)
  obtain ⟨a, rfl⟩ := List.length_eq_one_iff.mp hu
  refine ⟨_, meets_print hbase, ?_⟩
  cases m.sink with
  | accepting => exact turnsTo_keep hbase (List.prefix_append ..) (List.prefix_refl t) _ nofun nofun
  | broken reason => trivial

/-! ## Globals and locals -/

/-- A value that becomes a global leaves the stack. -/
theorem turns_defineGlobal (A : (m.on (⟨f, i, base⟩ :: rest) s).Aligned lib) {index : Nat}
    (hi : f.chunk.instruction? i = some (.defineGlobal index)) :
    Turns m f i base rest s (.defineGlobal index) := by
  obtain ⟨body, hbalanced⟩ := A.balanced
  obtain ⟨name, hl⟩ := hbalanced.names i _ hi
  obtain ⟨t, u, rfl, hu, hbase, -⟩ := A.split hi (n := 1) (Nat.le_refl 2)
  obtain ⟨a, rfl⟩ := List.length_eq_one_iff.mp hu
  exact ⟨_, meets_defineGlobal hl hbase,
    turnsTo_keep hbase (List.prefix_append ..) (List.prefix_refl t) _ nofun nofun⟩

/-- A global is put on the stack, or it is undefined. -/
theorem turns_getGlobal (A : (m.on (⟨f, i, base⟩ :: rest) s).Aligned lib) {index : Nat}
    (hi : f.chunk.instruction? i = some (.getGlobal index)) :
    Turns m f i base rest s (.getGlobal index) := by
  obtain ⟨body, hbalanced⟩ := A.balanced
  obtain ⟨name, hl⟩ := hbalanced.names i _ hi
  refine ⟨_, meets_getGlobal hl, ?_⟩
  cases m.globals[name]? with
  | none => trivial
  | some v =>
    exact turnsTo_keep (A.base_lt hi) (List.prefix_refl s) (List.prefix_append ..) _ nofun nofun

/-- A global that is set leaves its value on the stack. -/
theorem turns_setGlobal (A : (m.on (⟨f, i, base⟩ :: rest) s).Aligned lib) {index : Nat}
    (hi : f.chunk.instruction? i = some (.setGlobal index)) :
    Turns m f i base rest s (.setGlobal index) := by
  obtain ⟨body, hbalanced⟩ := A.balanced
  obtain ⟨name, hl⟩ := hbalanced.names i _ hi
  obtain ⟨t, u, rfl, hu, hbase, -⟩ := A.split hi (n := 1) (Nat.le_refl 2)
  obtain ⟨a, rfl⟩ := List.length_eq_one_iff.mp hu
  refine ⟨_, meets_setGlobal hl, ?_⟩
  cases m.globals[name]? with
  | none => trivial
  | some v => exact turnsTo_keep hbase (List.prefix_append ..) (List.prefix_append ..) _ nofun nofun

/-- A member of a global is set by value: the global is replaced. -/
theorem turns_setGlobalMember (A : (m.on (⟨f, i, base⟩ :: rest) s).Aligned lib)
    (hlimit : s.length ≤ stackLimit) {index : Nat} {mem : Member}
    (hi : f.chunk.instruction? i = some (.setGlobalMember index mem)) :
    Turns m f i base rest s (.setGlobalMember index mem) := by
  obtain ⟨body, hbalanced⟩ := A.balanced
  obtain ⟨name, hl⟩ := hbalanced.names i _ hi
  obtain ⟨t, u, rfl, hu, hbase, -⟩ := A.split hi (n := 1) (Nat.le_refl 2)
  obtain ⟨a, rfl⟩ := List.length_eq_one_iff.mp hu
  rw [List.length_append, List.length_singleton] at hlimit
  refine ⟨_, meets_setGlobalMember hl hbase (by omega), ?_⟩
  cases m.globals[name]? with
  | none => trivial
  | some old =>
    dsimp only
    cases old.setMember mem a with
    | error e => trivial
    | ok p => exact turnsTo_keep hbase (List.prefix_append ..) (List.prefix_append ..) _ nofun nofun

/-- A local is put on the stack. -/
theorem turns_getLocal (A : (m.on (⟨f, i, base⟩ :: rest) s).Aligned lib) {slot : Nat}
    (hi : f.chunk.instruction? i = some (.getLocal slot)) :
    Turns m f i base rest s (.getLocal slot) := by
  obtain ⟨body, hbalanced⟩ := A.balanced
  have hbelow : slot + 1 ≤ f.depth i := hbalanced.below i _ slot hi rfl
  have hlen := A.length
  have hlt : base + slot < s.length := by omega
  exact turns_keep A hi (List.prefix_append ..)
    (meets_getLocal (List.getElem?_eq_getElem hlt)) nofun nofun

/-- An instruction that changes a local and leaves a value.  Slot zero is none of the locals that
can be named. -/
theorem turnsTo_local {a v new : Value} {slot : Nat}
    (A : (m.on (⟨f, i, base⟩ :: rest) (t ++ [a])).Aligned lib)
    (hi : f.chunk.instruction? i = some instruction) (hslot : instruction.slot? = some slot)
    (hbase : base < t.length) (hcall : ∀ n, instruction ≠ .call n) :
    TurnsTo m.heap ⟨f, i, base⟩ rest (t ++ [a]) instruction
      (.ok (.next, k.on (⟨f, i + 1, base⟩ :: rest) (t.set (base + slot) new ++ [v]))) := by
  obtain ⟨body, hbalanced⟩ := A.balanced
  obtain ⟨-, -, -, -, hone, -⟩ := hbalanced.slots i instruction slot hi hslot
  have hset : base < (t.set (base + slot) new).length := by rwa [List.length_set]
  refine .stays _ hcall nofun ?_ ?_
  · simp only [on_stack, List.length_append]
    exact Nat.lt_add_right _ hset
  · simp only [on_stack]
    rw [List.take_append_of_le_length hset, List.take_append_of_le_length hbase,
      List.take_set_of_le (by omega)]

/-- A local that is set lies above slot zero. -/
theorem turns_setLocal (A : (m.on (⟨f, i, base⟩ :: rest) s).Aligned lib) {slot : Nat}
    (hi : f.chunk.instruction? i = some (.setLocal slot)) :
    Turns m f i base rest s (.setLocal slot) := by
  obtain ⟨body, hbalanced⟩ := A.balanced
  have hbelow : slot + 2 ≤ f.depth i := hbalanced.below i _ slot hi rfl
  obtain ⟨t, u, rfl, hu, hbase, hlen⟩ := A.split hi (n := 1) (Nat.le_refl 2)
  obtain ⟨a, rfl⟩ := List.length_eq_one_iff.mp hu
  have hlt : base + slot < t.length := by omega
  exact ⟨_, meets_setLocal hlt, turnsTo_local A hi rfl hbase nofun⟩

theorem turns_setLocalMember (A : (m.on (⟨f, i, base⟩ :: rest) s).Aligned lib) {slot : Nat}
    {mem : Member} (hi : f.chunk.instruction? i = some (.setLocalMember slot mem)) :
    Turns m f i base rest s (.setLocalMember slot mem) := by
  obtain ⟨body, hbalanced⟩ := A.balanced
  have hbelow : slot + 2 ≤ f.depth i := hbalanced.below i _ slot hi rfl
  obtain ⟨t, u, rfl, hu, hbase, hlen⟩ := A.split hi (n := 1) (Nat.le_refl 2)
  obtain ⟨a, rfl⟩ := List.length_eq_one_iff.mp hu
  have hlt : base + slot < t.length := by omega
  refine ⟨_, meets_setLocalMember (List.getElem?_eq_getElem hlt) hbase, ?_⟩
  cases t[base + slot].setMember mem a with
  | error e => trivial
  | ok p => exact turnsTo_local A hi rfl hbase nofun

/-! ## Jumps -/

/-- Whether or not the jump is made, the condition stays on the stack. -/
theorem turns_jumpIfFalse (A : (m.on (⟨f, i, base⟩ :: rest) s).Aligned lib) {offset : Nat}
    (hi : f.chunk.instruction? i = some (.jumpIfFalse offset)) :
    Turns m f i base rest s (.jumpIfFalse offset) := by
  obtain ⟨t, u, rfl, hu, hbase, -⟩ := A.split hi (n := 1) (Nat.le_refl 2)
  obtain ⟨a, rfl⟩ := List.length_eq_one_iff.mp hu
  refine ⟨_, meets_jumpIfFalse offset, ?_⟩
  split
  · exact turnsTo_keep hbase (List.prefix_append ..) (List.prefix_append ..) _ nofun nofun
  · exact turnsTo_keep hbase (List.prefix_append ..) (List.prefix_append ..) _ nofun nofun

/-- A jump back leads to a place that the function has. -/
theorem turns_loop (A : (m.on (⟨f, i, base⟩ :: rest) s).Aligned lib) {offset : Nat}
    (hi : f.chunk.instruction? i = some (.loop offset)) :
    Turns m f i base rest s (.loop offset) := by
  obtain ⟨body, hbalanced⟩ := A.balanced
  have hback : offset ≤ i + 1 := hbalanced.back i offset hi
  exact turns_keep A hi (List.prefix_refl s) (meets_loop hback) nofun nofun

/-! ## Calls -/

/-- A call takes the result of a native, enters a function with the right number of arguments, or
fails. -/
theorem turns_call (A : (m.on (⟨f, i, base⟩ :: rest) s).Aligned lib) {n : Nat}
    (hi : f.chunk.instruction? i = some (.call n)) : Turns m f i base rest s (.call n) := by
  obtain ⟨t, u, rfl, hu, hbase, -⟩ := A.split hi (n := n + 1) (Nat.le_refl (n + 2))
  obtain ⟨callee, arguments, rfl⟩ := List.exists_cons_of_length_eq_add_one hu
  obtain rfl : arguments.length = n := by simpa using hu
  by_cases hplain : callee.isObject = false
  · exact ⟨_, meets_call_other (.inr (.inr ⟨hplain, rfl⟩)), trivial⟩
  · obtain ⟨ref, rfl⟩ : ∃ ref, callee = .object ref := by
      cases callee <;> simp [Value.isObject] at hplain ⊢
    cases hget : m.heap.get? ref with
    | none => exact ⟨_, meets_call_other (.inr (.inl ⟨ref, rfl, hget, rfl⟩)), trivial⟩
    | some object =>
      cases object with
      | string text => exact ⟨_, meets_call_other (.inl ⟨ref, text, rfl, hget, rfl⟩), trivial⟩
      | function g =>
        refine ⟨_, meets_call_function hget, ?_⟩
        by_cases harity : g.arity ≠ arguments.length
        · rw [if_pos harity]
          trivial
        · rw [if_neg harity]
          split
          · trivial
          · next hdepth =>
            exact .enters rfl hbase hget (not_ne_iff.mp harity) (Nat.lt_of_not_le hdepth)
      | native nat =>
        refine ⟨_, meets_call_native hget, ?_⟩
        rcases nat.result_cases arguments with ⟨expected, hr⟩ | ⟨message, hr⟩ | ⟨v, hr, hcall⟩
        · rw [hr]
          trivial
        · rw [hr]
          trivial
        · rw [hr]
          exact .answers rfl hbase hget hcall

/-- A return drops the part of the stack of its call, and the result takes the place of the function
and its arguments. -/
theorem turns_ret (A : (m.on (⟨f, i, base⟩ :: rest) s).Aligned lib) (hlimit : s.length ≤ stackLimit)
    (hi : f.chunk.instruction? i = some .ret) : Turns m f i base rest s .ret := by
  obtain ⟨-, -, -, -, hrest⟩ := A.running
  obtain ⟨t, u, rfl, hu, hbase, -⟩ := A.split hi (n := 1) (Nat.le_refl 2)
  obtain ⟨a, rfl⟩ := List.length_eq_one_iff.mp hu
  rw [List.length_append, List.length_singleton] at hlimit
  have hlimit' : base < stackLimit := by omega
  refine ⟨_, meets_ret hbase hlimit', ?_⟩
  cases rest with
  | nil =>
    -- the script itself lies at the bottom of the stack
    obtain rfl : base = 0 := by simpa [Windows] using hrest
    exact .ends rfl
  | cons next rest =>
    show Turn _ _ _ _ _ _ _ (t.take base ++ [a])
    have htake : (t ++ [a]).take base = t.take base :=
      List.take_append_of_le_length (Nat.le_of_lt hbase)
    rw [← htake]
    exact .returns (List.cons_ne_nil _ _) rfl hbase

/-! ## All instructions -/

/-- Every instruction makes one of these turns, or fails. -/
theorem turns_execute (A : (m.on (⟨f, i, base⟩ :: rest) s).Aligned lib)
    (hlimit : s.length ≤ stackLimit) (hi : f.chunk.instruction? i = some instruction) :
    Turns m f i base rest s instruction := by
  cases instruction with
  | literal index => exact turns_literal A hi
  | nil => exact turns_keep A hi (List.prefix_append ..) meets_nil nofun nofun
  | yes => exact turns_keep A hi (List.prefix_append ..) meets_yes nofun nofun
  | no => exact turns_keep A hi (List.prefix_append ..) meets_no nofun nofun
  | pop => exact turns_pop A hi
  | defineGlobal index => exact turns_defineGlobal A hi
  | getGlobal index => exact turns_getGlobal A hi
  | setGlobal index => exact turns_setGlobal A hi
  | getLocal slot => exact turns_getLocal A hi
  | setLocal slot => exact turns_setLocal A hi
  | getMember | not | negate => exact turns_unary A hi rfl rfl nofun
  | setGlobalMember index mem => exact turns_setGlobalMember A hlimit hi
  | setLocalMember slot mem => exact turns_setLocalMember A hi
  | equal => exact turns_equal A hi
  | greater | less | subtract | multiply | divide => exact turns_binary A hi rfl rfl nofun
  | add => exact turns_add A hi
  | print => exact turns_print A hi
  | jump offset => exact turns_keep A hi (List.prefix_refl s) (meets_jump offset) nofun nofun
  | jumpIfFalse offset => exact turns_jumpIfFalse A hi
  | loop offset => exact turns_loop A hi
  | call n => exact turns_call A hi
  | ret => exact turns_ret A hlimit hi
  | yield => exact turns_keep A hi (List.prefix_refl s) meets_yield nofun nofun
  | stop => exact ⟨_, meets_stop, .stops⟩

/-- One instruction of an aligned machine: it succeeds and does one of these things to the calls, or
it fails and has done nothing to them but move past itself. -/
theorem Aligned.turns (A : m.Aligned lib) (hlimit : m.stack.size ≤ stackLimit) {fr : Frame}
    (hframes : m.frames = fr :: rest) :
    ∃ instruction, fr.function.chunk.instruction? fr.cursor = some instruction ∧
      ((∃ signal m', Exec.step.run m = .ok signal m' ∧
        Turn m.heap fr rest m.stack.toList instruction signal m'.frames m'.stack.toList) ∨
      ∃ e m', Exec.step.run m = .error e m' ∧
      m'.frames = { fr with cursor := fr.cursor + 1 } :: rest) := by
  obtain ⟨f, i, base⟩ := fr
  obtain ⟨s, hs⟩ : ∃ s : List Value, m.stack = s.toArray := ⟨m.stack.toList, by simp⟩
  have hm : m = m.on (⟨f, i, base⟩ :: rest) s := by
    rw [on, ← hframes, ← hs]
  rw [hm] at A ⊢
  rw [hs, List.size_toArray] at hlimit
  have hcursor : i < f.chunk.code.size := A.running.2.1
  have hi : f.chunk.instruction? i = some f.chunk.code[i].instruction := by
    rw [Chunk.instruction?, Array.getElem?_eq_getElem hcursor]
    rfl
  obtain ⟨r, hmeets, hturns⟩ := turns_execute A hlimit hi
  refine ⟨_, hi, ?_⟩
  rcases Exec.meets_step hi hmeets with ⟨signal, m', rfl, hstep, -⟩ | ⟨e, m', -, hstep, hspares⟩
  · exact .inl ⟨signal, m', hstep, hturns⟩
  · exact .inr ⟨e, m', hstep, hspares.frames⟩

/-- An instruction that succeeds keeps the calls aligned, and if the program goes on there still are
some. -/
theorem Aligned.succeeds (A : m.Aligned lib) (hrun : m.frames ≠ [])
    (hlimit : m.stack.size ≤ stackLimit) {m' : Machine} (hstep : Exec.step.run m = .ok signal m') :
    m'.Aligned lib ∧ m'.stack.size ≤ stackLimit ∧ (signal = .exit .finished ∨ m'.frames ≠ []) := by
  rcases A.step hrun hlimit with ⟨signal', k, hok, hlimit', A', -, -, hgoes⟩ | ⟨e, k, herror, -⟩
  · rw [hstep] at hok
    obtain ⟨rfl, rfl⟩ := EStateM.Result.ok.inj hok
    exact ⟨A', hlimit', hgoes⟩
  · rw [hstep] at herror
    cases herror

/-- What an instruction that succeeds does to the calls. -/
theorem Aligned.turn (A : m.Aligned lib) (hlimit : m.stack.size ≤ stackLimit) {fr : Frame}
    (hframes : m.frames = fr :: rest) {m' : Machine} (hstep : Exec.step.run m = .ok signal m') :
    ∃ instruction, fr.function.chunk.instruction? fr.cursor = some instruction ∧
      Turn m.heap fr rest m.stack.toList instruction signal m'.frames m'.stack.toList := by
  obtain ⟨instruction, hi, ⟨signal', k, hok, hturn⟩ | ⟨e, k, herror, -⟩⟩ := A.turns hlimit hframes
  · rw [hstep] at hok
    obtain ⟨rfl, rfl⟩ := EStateM.Result.ok.inj hok
    exact ⟨instruction, hi, hturn⟩
  · rw [hstep] at herror
    cases herror

/-- An instruction that fails has done nothing to the calls but move past itself. -/
theorem Aligned.stumbles (A : m.Aligned lib) (hlimit : m.stack.size ≤ stackLimit) {fr : Frame}
    (hframes : m.frames = fr :: rest) {e : Fault} {m' : Machine}
    (hstep : Exec.step.run m = .error e m') :
    (∃ instruction, fr.function.chunk.instruction? fr.cursor = some instruction) ∧
      m'.frames = { fr with cursor := fr.cursor + 1 } :: rest := by
  obtain ⟨instruction, hi, ⟨signal', k, hok, -⟩ | ⟨e', k, herror, hframes'⟩⟩ :=
    A.turns hlimit hframes
  · rw [hstep] at hok
    cases hok
  · rw [hstep] at herror
    obtain ⟨-, rfl⟩ := EStateM.Result.error.inj herror
    exact ⟨⟨instruction, hi⟩, hframes'⟩

end Machine

end EntityScript
