/-
# Instructions keep a machine aligned

Every instruction of an aligned machine either leaves the machine aligned or stops with a fault.
There is one statement for each kind of instruction; `proceeds_execute` puts them together.
-/
import EntityScript.Proofs.Machine.Alignment
import Mathlib.Data.List.Basic

namespace EntityScript

open Exec

/-- The last `n` entries of a list. -/
theorem exists_append_of_le {s : List Value} {n : Nat} (h : n ≤ s.length) :
    ∃ t u, s = t ++ u ∧ u.length = n := by
  refine ⟨s.take (s.length - n), s.drop (s.length - n), (List.take_append_drop _ _).symm, ?_⟩
  rw [List.length_drop]
  omega

namespace Machine

variable {lib : Library} {m : Machine} {f : Function} {i base : Nat} {rest : List Frame}
  {s : List Value} {instruction : Instruction}

/-- The instruction at the cursor of an aligned machine, and what the code says of it. -/
theorem Aligned.balanced (A : (m.on (⟨f, i, base⟩ :: rest) s).Aligned lib) :
    ∃ body, f.Balanced body := by
  obtain ⟨bodies, hmade⟩ := A.running.1.madeOf
  obtain ⟨body, -, hbalanced⟩ := hmade.balanced
  exact ⟨body, hbalanced⟩

theorem Aligned.length (A : (m.on (⟨f, i, base⟩ :: rest) s).Aligned lib) :
    s.length = base + f.depth i :=
  A.running.2.2.1

/-- The values that an instruction takes lie above slot zero. -/
theorem Aligned.split (A : (m.on (⟨f, i, base⟩ :: rest) s).Aligned lib)
    (hi : f.chunk.instruction? i = some instruction) {n : Nat} (hn : n + 1 ≤ instruction.needs) :
    ∃ t u, s = t ++ u ∧ u.length = n ∧ base < t.length ∧ t.length + n = base + f.depth i := by
  obtain ⟨body, hbalanced⟩ := A.balanced
  have hroom := hbalanced.room i instruction hi
  have hlen := A.length
  obtain ⟨t, u, rfl, hu⟩ := exists_append_of_le (s := s) (n := n) (by omega)
  rw [List.length_append] at hlen
  exact ⟨t, u, rfl, hu, by omega, by omega⟩

/-- What an instruction at the cursor comes to. -/
def Comes (lib : Library) (m : Machine) (f : Function) (i base : Nat) (rest : List Frame)
    (s : List Value) (x : Exec Signal) : Prop :=
  ∃ r, Meets x (m.on (⟨f, i + 1, base⟩ :: rest) s) r ∧
    Proceeds lib (m.on (⟨f, i, base⟩ :: rest) s) r

/-- An instruction that pushes a value. -/
theorem comes_push (A : (m.on (⟨f, i, base⟩ :: rest) s).Aligned lib)
    (hi : f.chunk.instruction? i = some instruction) {v : Value}
    (hv : (m.on (⟨f, i, base⟩ :: rest) s).Valid → v.Lives m.heap)
    (hneeds : instruction.needs = 1) (htargets : instruction.targets i = [i + 1])
    (hflow : instruction.flow (f.depth i) = f.depth i + 1)
    (hmeets : Meets (Exec.execute instruction) (m.on (⟨f, i + 1, base⟩ :: rest) s)
      (.ok (.next, m.on (⟨f, i + 1, base⟩ :: rest) (s ++ [v])))) :
    Comes lib m f i base rest s (Exec.execute instruction) := by
  obtain ⟨body, hbalanced⟩ := A.balanced
  have hroom := hbalanced.room i instruction hi
  have hlen := A.length
  exact ⟨_, hmeets, proceeds_value A hi (by simp [htargets]) (List.append_nil s).symm (by omega)
    (by omega) (fun _ => hv)⟩

/-- A literal is among those of the function, and what it makes is known. -/
theorem comes_literal (A : (m.on (⟨f, i, base⟩ :: rest) s).Aligned lib) {index : Nat}
    (hi : f.chunk.instruction? i = some (.literal index)) :
    Comes lib m f i base rest s (Exec.execute (.literal index)) := by
  obtain ⟨body, hbalanced⟩ := A.balanced
  obtain ⟨l, hl⟩ := hbalanced.names i _ hi
  have hroom : 1 ≤ f.depth i := hbalanced.room i _ hi
  have hlen := A.length
  have hknown : m.heap.Known lib m.host := A.heap
  obtain ⟨hknown', hx, hv⟩ := hknown.literal (l := l) (by
    rintro g rfl
    exact A.running.1.literal (List.mem_of_getElem? hl))
  refine ⟨_, meets_literal hl hx, ?_⟩
  refine proceeds_push A hi (by simp [Instruction.targets]) (List.append_nil s).symm (by omega) ?_
    m.globals hknown' hx ?_
  · show s.length + 1 = base + (f.depth i + 1)
    omega
  · intro _ hvalid
    exact ⟨hv, fun x w hw => (hvalid.globals x w hw).extends hx⟩

/-! ## Operators -/

/-- An operator with one operand. -/
theorem comes_unary (A : (m.on (⟨f, i, base⟩ :: rest) s).Aligned lib)
    (hi : f.chunk.instruction? i = some instruction) {op : Value → Except OperandError Value}
    (hplain : ∀ a, PlainResult (op a)) (hneeds : instruction.needs = 2)
    (htargets : instruction.targets i = [i + 1])
    (hflow : instruction.flow (f.depth i) = f.depth i) :
    Comes lib m f i base rest s (do unary op; return Signal.next) := by
  obtain ⟨t, u, rfl, hu, hbase, hlen⟩ := A.split hi (n := 1) (by omega)
  obtain ⟨a, rfl⟩ := List.length_eq_one_iff.mp hu
  refine ⟨_, meets_unary hbase, ?_⟩
  cases hop : op a with
  | ok v =>
    exact proceeds_value A hi (by simp [htargets]) rfl hbase (by omega)
      (fun _ _ => Value.lives_of_plain (hplain a v hop))
  | error e => exact .inl rfl

/-- An operator with two operands. -/
theorem comes_binary (A : (m.on (⟨f, i, base⟩ :: rest) s).Aligned lib)
    (hi : f.chunk.instruction? i = some instruction)
    {op : Value → Value → Except OperandError Value}
    (hplain : ∀ a b, PlainResult (op a b)) (hneeds : instruction.needs = 3)
    (htargets : instruction.targets i = [i + 1])
    (hflow : instruction.flow (f.depth i) = f.depth i - 1) :
    Comes lib m f i base rest s (do binary op; return Signal.next) := by
  obtain ⟨t, u, rfl, hu, hbase, hlen⟩ := A.split hi (n := 2) (by omega)
  obtain ⟨a, b, rfl⟩ := List.length_eq_two.mp hu
  refine ⟨_, meets_binary hbase, ?_⟩
  cases hop : op a b with
  | ok v =>
    exact proceeds_value A hi (by simp [htargets]) rfl hbase (by omega)
      (fun _ _ => Value.lives_of_plain (hplain a b v hop))
  | error e => exact .inl rfl

theorem comes_equal (A : (m.on (⟨f, i, base⟩ :: rest) s).Aligned lib)
    (hi : f.chunk.instruction? i = some .equal) :
    Comes lib m f i base rest s (Exec.execute .equal) := by
  obtain ⟨t, u, rfl, hu, hbase, hlen⟩ := A.split hi (n := 2) (Nat.le_refl 3)
  obtain ⟨a, b, rfl⟩ := List.length_eq_two.mp hu
  refine ⟨_, meets_equal hbase, ?_⟩
  refine proceeds_value A hi (by simp [Instruction.targets]) rfl hbase ?_
    (fun _ _ => Value.lives_of_plain rfl)
  show _ = base + (f.depth i - 1)
  omega

/-- A sum of two values is a value that lives, or an error of the script. -/
theorem comes_add (A : (m.on (⟨f, i, base⟩ :: rest) s).Aligned lib)
    (hi : f.chunk.instruction? i = some .add) :
    Comes lib m f i base rest s (Exec.execute .add) := by
  obtain ⟨t, u, rfl, hu, hbase, hlen⟩ := A.split hi (n := 2) (Nat.le_refl 3)
  obtain ⟨a, b, rfl⟩ := List.length_eq_two.mp hu
  have hknown : m.heap.Known lib m.host := A.heap
  refine ⟨_, meets_add hbase (fun v heap h => (hknown.sum h).2.1), ?_⟩
  cases hsum : m.heap.sum a b with
  | error e => exact .inl rfl
  | ok p =>
    obtain ⟨v, heap⟩ := p
    obtain ⟨hknown', hx, hv⟩ := hknown.sum hsum
    refine proceeds_push A hi (by simp [Instruction.targets]) rfl hbase ?_ m.globals hknown' hx ?_
    · show t.length + 1 = base + (f.depth i - 1)
      omega
    · intro _ hvalid
      exact ⟨hv, fun x w hw => (hvalid.globals x w hw).extends hx⟩

/-! ## Globals -/

/-- A global that gets a value that lives keeps all globals alive. -/
theorem lives_insert {globals : Std.TreeMap String Value} {h : Heap} {name : String} {v : Value}
    (hg : ∀ (x : String) w, globals[x]? = some w → w.Lives h) (hv : v.Lives h)
    (x : String) (w : Value) (hw : (globals.insert name v)[x]? = some w) : w.Lives h := by
  rw [Std.TreeMap.getElem?_insert] at hw
  split at hw
  · obtain rfl := Option.some.inj hw
    exact hv
  · exact hg x w hw

/-- The name is among the literals, and the value that becomes a global lives. -/
theorem comes_defineGlobal (A : (m.on (⟨f, i, base⟩ :: rest) s).Aligned lib) {index : Nat}
    (hi : f.chunk.instruction? i = some (.defineGlobal index)) :
    Comes lib m f i base rest s (Exec.execute (.defineGlobal index)) := by
  obtain ⟨body, hbalanced⟩ := A.balanced
  obtain ⟨name, hl⟩ := hbalanced.names i _ hi
  obtain ⟨t, u, rfl, hu, hbase, hlen⟩ := A.split hi (n := 1) (Nat.le_refl 2)
  obtain ⟨a, rfl⟩ := List.length_eq_one_iff.mp hu
  refine ⟨_, meets_defineGlobal hl hbase, ?_⟩
  refine proceeds_drop A hi (by simp [Instruction.targets]) rfl hbase ?_ _ ?_
  · show t.length = base + (f.depth i - 1)
    omega
  · intro hvalid
    exact lives_insert hvalid.globals (hvalid.stack a (by simp))

/-- A global that is there lives; one that is not is an error of the script. -/
theorem comes_getGlobal (A : (m.on (⟨f, i, base⟩ :: rest) s).Aligned lib) {index : Nat}
    (hi : f.chunk.instruction? i = some (.getGlobal index)) :
    Comes lib m f i base rest s (Exec.execute (.getGlobal index)) := by
  obtain ⟨body, hbalanced⟩ := A.balanced
  obtain ⟨name, hl⟩ := hbalanced.names i _ hi
  have hmeets : Meets (Exec.execute (.getGlobal index)) (m.on (⟨f, i + 1, base⟩ :: rest) s) _ :=
    meets_getGlobal hl
  cases hg : m.globals[name]? with
  | none =>
    rw [hg] at hmeets
    exact ⟨_, hmeets, .inl rfl⟩
  | some v =>
    rw [hg] at hmeets
    exact comes_push A hi (fun hvalid => hvalid.globals name v hg) rfl rfl rfl hmeets

/-- A global is set to a value that lives. -/
theorem comes_setGlobal (A : (m.on (⟨f, i, base⟩ :: rest) s).Aligned lib) {index : Nat}
    (hi : f.chunk.instruction? i = some (.setGlobal index)) :
    Comes lib m f i base rest s (Exec.execute (.setGlobal index)) := by
  obtain ⟨body, hbalanced⟩ := A.balanced
  obtain ⟨name, hl⟩ := hbalanced.names i _ hi
  obtain ⟨t, u, rfl, hu, hbase, hlen⟩ := A.split hi (n := 1) (Nat.le_refl 2)
  obtain ⟨a, rfl⟩ := List.length_eq_one_iff.mp hu
  refine ⟨_, meets_setGlobal hl, ?_⟩
  cases hg : m.globals[name]? with
  | none => exact .inl rfl
  | some v =>
    refine proceeds_push A hi (by simp [Instruction.targets]) rfl hbase (by exact hlen) _ A.heap
      (.refl _) ?_
    intro _ hvalid
    exact ⟨hvalid.stack a (by simp), lives_insert hvalid.globals (hvalid.stack a (by simp))⟩

/-- A global whose member is set becomes a value without objects. -/
theorem comes_setGlobalMember (A : (m.on (⟨f, i, base⟩ :: rest) s).Aligned lib)
    (hlimit : s.length ≤ stackLimit) {index : Nat} {mem : Member}
    (hi : f.chunk.instruction? i = some (.setGlobalMember index mem)) :
    Comes lib m f i base rest s (Exec.execute (.setGlobalMember index mem)) := by
  obtain ⟨body, hbalanced⟩ := A.balanced
  obtain ⟨name, hl⟩ := hbalanced.names i _ hi
  obtain ⟨t, u, rfl, hu, hbase, hlen⟩ := A.split hi (n := 1) (Nat.le_refl 2)
  obtain ⟨a, rfl⟩ := List.length_eq_one_iff.mp hu
  rw [List.length_append, List.length_singleton] at hlimit
  refine ⟨_, meets_setGlobalMember hl hbase (by omega), ?_⟩
  cases hg : m.globals[name]? with
  | none => exact .inl rfl
  | some old =>
    dsimp only
    cases hm : old.setMember mem a with
    | error e => exact .inl rfl
    | ok p =>
      obtain ⟨new, stored⟩ := p
      refine proceeds_push A hi (by simp [Instruction.targets]) rfl hbase (by exact hlen) _ A.heap
        (.refl _) ?_
      intro _ hvalid
      exact ⟨Value.lives_of_plain rfl,
        lives_insert hvalid.globals (Value.lives_of_plain (Value.plain_of_setMember hm))⟩

/-! ## Locals -/

/-- The slot lies within the part of the call. -/
theorem comes_getLocal (A : (m.on (⟨f, i, base⟩ :: rest) s).Aligned lib) {slot : Nat}
    (hi : f.chunk.instruction? i = some (.getLocal slot)) :
    Comes lib m f i base rest s (Exec.execute (.getLocal slot)) := by
  obtain ⟨body, hbalanced⟩ := A.balanced
  have hbelow : slot + 1 ≤ f.depth i := hbalanced.below i _ slot hi rfl
  have hlen := A.length
  have hlt : base + slot < s.length := by omega
  refine comes_push A hi ?_ rfl rfl rfl (meets_getLocal (List.getElem?_eq_getElem hlt))
  intro hvalid
  exact hvalid.stack _ (List.getElem_mem hlt)

/-- An instruction that changes a local and leaves a value. -/
theorem proceeds_local {t : List Value} {a v new : Value} {slot : Nat}
    (A : (m.on (⟨f, i, base⟩ :: rest) (t ++ [a])).Aligned lib)
    (hi : f.chunk.instruction? i = some instruction) (hj : i + 1 ∈ instruction.targets i)
    (hslot : instruction.slot? = some slot) (hflow : instruction.flow (f.depth i) = f.depth i)
    (hnew : (m.on (⟨f, i, base⟩ :: rest) (t ++ [a])).Valid → new.Lives m.heap ∧ v.Lives m.heap) :
    Proceeds lib (m.on (⟨f, i, base⟩ :: rest) (t ++ [a]))
      (.ok (.next, m.on (⟨f, i + 1, base⟩ :: rest) (t.set (base + slot) new ++ [v]))) := by
  obtain ⟨body, hbalanced⟩ := A.balanced
  obtain ⟨q, -, -, -, hone, -⟩ := hbalanced.slots i instruction slot hi hslot
  have hbelow := hbalanced.below i instruction slot hi hslot
  have hlen := A.length
  rw [List.length_append, List.length_singleton] at hlen
  have hneeds : 1 ≤ instruction.needs := by cases instruction <;> simp [Instruction.needs]
  refine proceeds_go A hi hj m.globals ?_ ?_ A.heap (.refl _) ?_
  · rw [List.length_append, List.length_set, List.length_singleton]
    omega
  · -- slot zero is none of those that can be named
    intro k hk
    rw [List.getElem?_append_left (by rw [List.length_set]; omega), List.getElem?_set_ne (by omega),
      List.getElem?_append_left (by omega)]
  · intro _ hvalid
    obtain ⟨hlives, hv⟩ := hnew hvalid
    refine ⟨?_, hvalid.globals⟩
    intro w hw
    rcases List.mem_append.mp hw with hw | hw
    · rcases List.mem_or_eq_of_mem_set hw with hw | rfl
      · exact hvalid.stack w (by simp [hw])
      · exact hlives
    · obtain rfl := List.mem_singleton.mp hw
      exact hv

/-- The slot lies below the value that is set, and above slot zero. -/
theorem comes_setLocal (A : (m.on (⟨f, i, base⟩ :: rest) s).Aligned lib) {slot : Nat}
    (hi : f.chunk.instruction? i = some (.setLocal slot)) :
    Comes lib m f i base rest s (Exec.execute (.setLocal slot)) := by
  obtain ⟨body, hbalanced⟩ := A.balanced
  have hbelow : slot + 2 ≤ f.depth i := hbalanced.below i _ slot hi rfl
  obtain ⟨t, u, rfl, hu, hbase, hlen⟩ := A.split hi (n := 1) (Nat.le_refl 2)
  obtain ⟨a, rfl⟩ := List.length_eq_one_iff.mp hu
  have hlt : base + slot < t.length := by omega
  refine ⟨_, meets_setLocal hlt, ?_⟩
  refine proceeds_local A hi (by simp [Instruction.targets]) rfl rfl ?_
  intro hvalid
  exact ⟨hvalid.stack a (by simp), hvalid.stack a (by simp)⟩

/-- The slot of which a member is set lies within the part of the call. -/
theorem comes_setLocalMember (A : (m.on (⟨f, i, base⟩ :: rest) s).Aligned lib) {slot : Nat}
    {mem : Member} (hi : f.chunk.instruction? i = some (.setLocalMember slot mem)) :
    Comes lib m f i base rest s (Exec.execute (.setLocalMember slot mem)) := by
  obtain ⟨body, hbalanced⟩ := A.balanced
  have hbelow : slot + 2 ≤ f.depth i := hbalanced.below i _ slot hi rfl
  obtain ⟨t, u, rfl, hu, hbase, hlen⟩ := A.split hi (n := 1) (Nat.le_refl 2)
  obtain ⟨a, rfl⟩ := List.length_eq_one_iff.mp hu
  have hlt : base + slot < t.length := by omega
  refine ⟨_, meets_setLocalMember (List.getElem?_eq_getElem hlt) hbase, ?_⟩
  cases hm : t[base + slot].setMember mem a with
  | error e => exact .inl rfl
  | ok p =>
    obtain ⟨new, stored⟩ := p
    refine proceeds_local A hi (by simp [Instruction.targets]) rfl rfl ?_
    intro _
    exact ⟨Value.lives_of_plain (Value.plain_of_setMember hm), Value.lives_of_plain rfl⟩

/-! ## Dropping, printing and jumping -/

theorem comes_pop (A : (m.on (⟨f, i, base⟩ :: rest) s).Aligned lib)
    (hi : f.chunk.instruction? i = some .pop) :
    Comes lib m f i base rest s (Exec.execute .pop) := by
  obtain ⟨t, u, rfl, hu, hbase, hlen⟩ := A.split hi (n := 1) (Nat.le_refl 2)
  obtain ⟨a, rfl⟩ := List.length_eq_one_iff.mp hu
  refine ⟨_, meets_pop hbase, ?_⟩
  refine proceeds_drop A hi (by simp [Instruction.targets]) rfl hbase ?_ m.globals Valid.globals
  show t.length = base + (f.depth i - 1)
  omega

theorem comes_print (A : (m.on (⟨f, i, base⟩ :: rest) s).Aligned lib)
    (hi : f.chunk.instruction? i = some .print) :
    Comes lib m f i base rest s (Exec.execute .print) := by
  obtain ⟨t, u, rfl, hu, hbase, hlen⟩ := A.split hi (n := 1) (Nat.le_refl 2)
  obtain ⟨a, rfl⟩ := List.length_eq_one_iff.mp hu
  refine ⟨_, meets_print hbase, ?_⟩
  cases m.sink with
  | broken reason => exact .inl rfl
  | accepting =>
    refine proceeds_drop A hi (by simp [Instruction.targets]) rfl hbase ?_ m.globals Valid.globals
    show t.length = base + (f.depth i - 1)
    omega

/-- An instruction that leaves the stack as it is. -/
theorem proceeds_jump (A : (m.on (⟨f, i, base⟩ :: rest) s).Aligned lib)
    (hi : f.chunk.instruction? i = some instruction) {j : Nat} (hj : j ∈ instruction.targets i)
    (hflow : instruction.flow (f.depth i) = f.depth i) {sig : Signal} :
    Proceeds lib (m.on (⟨f, i, base⟩ :: rest) s) (.ok (sig, m.on (⟨f, j, base⟩ :: rest) s)) := by
  refine proceeds_go A hi hj m.globals ?_ (fun _ _ => rfl) A.heap (.refl _) ?_
  · rw [hflow]
    exact A.length
  · intro _ hvalid
    exact ⟨fun w hw => hvalid.stack w (by simpa using hw), hvalid.globals⟩

/-- Both places that a conditional jump leads to have the depth that is left. -/
theorem comes_jumpIfFalse (A : (m.on (⟨f, i, base⟩ :: rest) s).Aligned lib) {offset : Nat}
    (hi : f.chunk.instruction? i = some (.jumpIfFalse offset)) :
    Comes lib m f i base rest s (Exec.execute (.jumpIfFalse offset)) := by
  obtain ⟨t, u, rfl, hu, hbase, hlen⟩ := A.split hi (n := 1) (Nat.le_refl 2)
  obtain ⟨a, rfl⟩ := List.length_eq_one_iff.mp hu
  refine ⟨_, meets_jumpIfFalse offset, ?_⟩
  by_cases ha : a = .bool false
  · rw [if_pos ha]
    exact proceeds_jump A hi (by simp [Instruction.targets]) rfl
  · rw [if_neg ha]
    exact proceeds_jump A hi (by simp [Instruction.targets]) rfl

/-- The place that a jump back leads to has it, too. -/
theorem comes_loop (A : (m.on (⟨f, i, base⟩ :: rest) s).Aligned lib) {offset : Nat}
    (hi : f.chunk.instruction? i = some (.loop offset)) :
    Comes lib m f i base rest s (Exec.execute (.loop offset)) := by
  obtain ⟨body, hbalanced⟩ := A.balanced
  have hback : offset ≤ i + 1 := hbalanced.back i offset hi
  exact ⟨_, meets_loop hback, proceeds_jump A hi (by simp [Instruction.targets]) rfl⟩

/-! ## Calls -/

/-- A function that has been called starts with its own part of the stack. -/
theorem proceeds_enter {t arguments : List Value} {ref : Ref} {g : Function}
    (A : (m.on (⟨f, i, base⟩ :: rest) (t ++ .object ref :: arguments)).Aligned lib)
    (hi : f.chunk.instruction? i = some (.call arguments.length)) (hbase : base < t.length)
    (hlen : t.length + (arguments.length + 1) = base + f.depth i)
    (hg : m.heap.get? ref = some (.function g)) (harity : g.arity = arguments.length) :
    Proceeds lib (m.on (⟨f, i, base⟩ :: rest) (t ++ .object ref :: arguments))
      (.ok (.next, m.on (⟨g, 0, t.length⟩ :: ⟨f, i + 1, base⟩ :: rest)
        (t ++ .object ref :: arguments))) := by
  obtain ⟨hf, hcursor, hsize, hbases, hrest⟩ := A.running
  obtain ⟨body, hbalanced⟩ := A.balanced
  obtain ⟨hin, hdepth⟩ := hbalanced.edges i _ hi (i + 1) (by simp [Instruction.targets])
  have hknown : m.heap.Known lib m.host := A.heap
  -- the function is one of the library, so its code is balanced, too
  have hholds := hknown.functions ref g hg
  obtain ⟨bodies, hmade⟩ := hholds.madeOf
  obtain ⟨gbody, -, hgbalanced⟩ := hmade.balanced
  have hdepth' : f.depth (i + 1) = f.depth i - arguments.length := hdepth
  refine ⟨⟨A.heap, .inr ⟨by simp, ?_⟩, ?_⟩, fun _ hvalid => ⟨hvalid.stack, hvalid.globals⟩, rfl,
    .inr (by simp)⟩
  -- the stack is as high as both windows say
  · simp only [on_frames, on_stack, List.size_toArray, List.length_append, List.length_cons]
    refine ⟨hholds, ?_, ?_, ?_, hf, hin, ?_, hbases, hrest⟩
    · obtain ⟨lastLine, hcode⟩ := hgbalanced.code
      rw [← Array.length_toList, hcode, List.length_append, length_placeOn]
      show 0 < gbody.postorder.length + 2
      omega
    · show t.length + (arguments.length + 1) = t.length + g.depth 0
      rw [hgbalanced.start]
      omega
    · intro fr hfr
      rcases List.mem_cons.mp hfr with rfl | hfr
      · exact hbase
      · exact Nat.lt_trans (hbases fr hfr) hbase
    · show t.length + 1 = base + f.depth (i + 1)
      omega
  · intro fr hfr
    rcases List.mem_cons.mp hfr with rfl | hfr
    · exact ⟨ref, by simp, hg⟩
    · rcases List.mem_cons.mp hfr with rfl | hfr
      · exact A.own ⟨f, i, base⟩ (by simp)
      · exact A.own fr (by simp [hfr])

/-- A call finds its callee and the arguments; a function that is entered has its own part of the
stack. -/
theorem comes_call (A : (m.on (⟨f, i, base⟩ :: rest) s).Aligned lib) {n : Nat}
    (hi : f.chunk.instruction? i = some (.call n)) :
    Comes lib m f i base rest s (Exec.execute (.call n)) := by
  obtain ⟨t, u, rfl, hu, hbase, hlen⟩ := A.split hi (n := n + 1) (Nat.le_refl (n + 2))
  obtain ⟨callee, arguments, rfl⟩ := List.exists_cons_of_length_eq_add_one hu
  obtain rfl : arguments.length = n := by simpa using hu
  have hknown : m.heap.Known lib m.host := A.heap
  by_cases hplain : callee.isObject = false
  · exact ⟨_, meets_call_other (.inr (.inr ⟨hplain, rfl⟩)), .inl rfl⟩
  · obtain ⟨ref, rfl⟩ : ∃ ref, callee = .object ref := by
      cases callee <;> simp [Value.isObject] at hplain ⊢
    cases hget : m.heap.get? ref with
    | none =>
      refine ⟨_, meets_call_other (.inr (.inl ⟨ref, rfl, hget, rfl⟩)), .inr ⟨rfl, ?_⟩⟩
      intro hvalid
      -- on a valid machine the callee would be on the heap
      have hlives := hvalid.stack (.object ref) (by simp) ref rfl
      obtain ⟨object, hobject⟩ := Heap.lt_size_iff.mp hlives
      rw [on_heap, hget] at hobject
      cases hobject
    | some object =>
      cases object with
      | string text => exact ⟨_, meets_call_other (.inl ⟨ref, text, rfl, hget, rfl⟩), .inl rfl⟩
      | function g =>
        refine ⟨_, meets_call_function hget, ?_⟩
        by_cases harity : g.arity ≠ arguments.length
        · rw [if_pos harity]
          exact .inl rfl
        · rw [if_neg harity]
          split
          · exact .inl rfl
          · exact proceeds_enter A hi hbase hlen hget (not_ne_iff.mp harity)
      | native nat =>
        refine ⟨_, meets_call_native hget, ?_⟩
        rcases nat.result_cases arguments with ⟨expected, hr⟩ | ⟨message, hr⟩ | ⟨v, hr, hcall⟩
        · rw [hr]
          exact .inl rfl
        · rw [hr]
          exact .inl rfl
        · rw [hr]
          refine proceeds_value A hi (by simp [Instruction.targets]) rfl hbase ?_ ?_
          · show t.length + 1 = base + (f.depth i - arguments.length)
            omega
          · intro htame hvalid
            -- a native of the host is tame: its result is plain, or one of the arguments
            obtain ⟨name, hname⟩ := hknown.natives ref nat hget
            rcases htame name nat hname arguments v hcall with hv | hv
            · exact Value.lives_of_plain hv
            · exact hvalid.stack v (by simp [hv])

/-- A return leaves the caller with the depth behind the call. -/
theorem comes_ret (A : (m.on (⟨f, i, base⟩ :: rest) s).Aligned lib) (hlimit : s.length ≤ stackLimit)
    (hi : f.chunk.instruction? i = some .ret) :
    Comes lib m f i base rest s (Exec.execute .ret) := by
  obtain ⟨hf, hcursor, hsize, hbases, hrest⟩ := A.running
  obtain ⟨t, u, rfl, hu, hbase, hlen⟩ := A.split hi (n := 1) (Nat.le_refl 2)
  obtain ⟨a, rfl⟩ := List.length_eq_one_iff.mp hu
  rw [List.length_append, List.length_singleton] at hlimit
  have hlimit' : base < stackLimit := by omega
  refine ⟨_, meets_ret hbase hlimit', ?_⟩
  have htake : (t.take base).length = base := by
    rw [List.length_take]
    omega
  cases rest with
  | nil =>
    -- the script itself lies at the bottom of the stack
    have hzero : base = 0 := by simpa [Windows] using hrest
    subst hzero
    refine ⟨⟨A.heap, .inl ⟨rfl, by simp⟩, ?_⟩, ?_, rfl, .inl rfl⟩
    · intro fr hfr
      cases hfr
    · intro _ hvalid
      refine ⟨?_, hvalid.globals⟩
      intro w hw
      simp at hw
  | cons next rest =>
    refine ⟨⟨A.heap, .inr ⟨by simp, ?_⟩, ?_⟩, ?_, rfl, .inr (by simp)⟩
    · simp only [on_frames, on_stack, List.size_toArray, List.length_append, htake]
      exact hrest
    · intro fr hfr
      have hlt : fr.base < base := hbases fr hfr
      obtain ⟨ref, hget, hobject⟩ := A.own fr (List.mem_cons_of_mem _ hfr)
      refine ⟨ref, ?_, hobject⟩
      show (t.take base ++ [a]).toArray[fr.base]? = _
      rw [← hget, on_stack, List.getElem?_toArray, List.getElem?_toArray,
        List.getElem?_append_left (by omega), List.getElem?_append_left (by omega),
        List.getElem?_take_of_lt hlt]
    · intro _ hvalid
      refine ⟨?_, hvalid.globals⟩
      intro w hw
      rcases List.mem_append.mp hw with hw | hw
      · exact hvalid.stack w (by simp [List.mem_of_mem_take hw])
      · obtain rfl := List.mem_singleton.mp hw
        exact hvalid.stack w (by simp)

/-- A stop leaves nothing on the stack. -/
theorem comes_stop (A : (m.on (⟨f, i, base⟩ :: rest) s).Aligned lib) :
    Comes lib m f i base rest s (Exec.execute .stop) := by
  refine ⟨_, meets_stop, ⟨A.heap, .inl ⟨rfl, rfl⟩, ?_⟩, ?_, rfl, .inl rfl⟩
  · intro fr hfr
    cases hfr
  · intro _ hvalid
    refine ⟨?_, hvalid.globals⟩
    intro w hw
    cases hw

/-! ## All instructions -/

/-- An instruction keeps an aligned machine aligned, or stops. -/
theorem comes_execute (A : (m.on (⟨f, i, base⟩ :: rest) s).Aligned lib)
    (hlimit : s.length ≤ stackLimit) (hi : f.chunk.instruction? i = some instruction) :
    Comes lib m f i base rest s (Exec.execute instruction) := by
  cases instruction with
  | literal index => exact comes_literal A hi
  | nil => exact comes_push A hi (fun _ => Value.lives_of_plain rfl) rfl rfl rfl meets_nil
  | yes => exact comes_push A hi (fun _ => Value.lives_of_plain rfl) rfl rfl rfl meets_yes
  | no => exact comes_push A hi (fun _ => Value.lives_of_plain rfl) rfl rfl rfl meets_no
  | pop => exact comes_pop A hi
  | defineGlobal index => exact comes_defineGlobal A hi
  | getGlobal index => exact comes_getGlobal A hi
  | setGlobal index => exact comes_setGlobal A hi
  | getLocal slot => exact comes_getLocal A hi
  | setLocal slot => exact comes_setLocal A hi
  | getMember mem => exact comes_unary A hi (fun a => a.plainResult_member mem) rfl rfl rfl
  | setGlobalMember index mem => exact comes_setGlobalMember A hlimit hi
  | setLocalMember slot mem => exact comes_setLocalMember A hi
  | equal => exact comes_equal A hi
  | greater => exact comes_binary A hi (fun _ _ => plainResult_compareWith _ _ _ _ _) rfl rfl rfl
  | less => exact comes_binary A hi (fun _ _ => plainResult_compareWith _ _ _ _ _) rfl rfl rfl
  | add => exact comes_add A hi
  | subtract => exact comes_binary A hi Value.plainResult_subtract rfl rfl rfl
  | multiply => exact comes_binary A hi Value.plainResult_multiply rfl rfl rfl
  | divide => exact comes_binary A hi Value.plainResult_divide rfl rfl rfl
  | not => exact comes_unary A hi Value.plainResult_not rfl rfl rfl
  | negate => exact comes_unary A hi Value.plainResult_negate rfl rfl rfl
  | print => exact comes_print A hi
  | jump offset =>
    exact ⟨_, meets_jump offset, proceeds_jump A hi (by simp [Instruction.targets]) rfl⟩
  | jumpIfFalse offset => exact comes_jumpIfFalse A hi
  | loop offset => exact comes_loop A hi
  | call n => exact comes_call A hi
  | ret => exact comes_ret A hlimit hi
  | yield => exact ⟨_, meets_yield, proceeds_jump A hi (by simp [Instruction.targets]) rfl⟩
  | stop => exact comes_stop A

end Machine

end EntityScript
