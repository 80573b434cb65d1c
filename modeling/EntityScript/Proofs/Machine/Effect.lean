/-
# What one instruction does to calls, functions and globals

An instruction can make the function among the literals that it names, define a global, move the
cursor of the innermost call, call a function that is there, or end calls.  The rest of the calls,
the functions on the heap and the names of globals stay (`Machine.Moves`), and only an instruction
that names a global can find it undefined.
-/
import EntityScript.Proofs.Code.Globals
import EntityScript.Proofs.Machine.Keeping
import EntityScript.Proofs.Machine.Heap

namespace EntityScript

/-- A compiled function is among the objects of a heap. -/
def Heap.Has (h : Heap) (f : Function) : Prop :=
  ∃ ref, h.get? ref = some (.function f)

namespace Heap

/-- Making a text makes no function. -/
theorem has_intern {h : Heap} {text : String} {f : Function} (hf : (h.intern text).2.Has f) :
    h.Has f := by
  obtain ⟨ref, hf⟩ := hf
  rcases get?_intern hf with hf | hf
  · exact ⟨ref, hf⟩
  · cases hf

/-- Making a function makes that function only. -/
theorem has_function {h : Heap} {f g : Function} (hg : (h.function f).2.Has g) :
    h.Has g ∨ g = f := by
  obtain ⟨ref, hg⟩ := hg
  rcases get?_function hg with hg | hg
  · exact .inl ⟨ref, hg⟩
  · exact .inr (Object.function.inj hg)

end Heap

namespace Machine

/-- The second machine has the calls, the globals and the functions of the first. -/
structure Calm (m m' : Machine) : Prop where
  frames : m'.frames = m.frames
  globals : m'.globals = m.globals
  functions : ∀ f, m'.heap.Has f → m.heap.Has f

theorem Calm.trans {a b c : Machine} (h : Calm a b) (k : Calm b c) : Calm a c :=
  ⟨k.frames.trans h.frames, k.globals.trans h.globals, fun f hf => h.functions f (k.functions f hf)⟩

/-- The second machine has the globals and the functions of the first, and executes the function
`f`, with the calls `rest` below, at place `j`. -/
structure At (m : Machine) (f : Function) (j base : Nat) (rest : List Frame) (k : Machine) :
    Prop where
  frames : k.frames = ⟨f, j, base⟩ :: rest
  globals : k.globals = m.globals
  functions : ∀ g, k.heap.Has g → m.heap.Has g

/-- What changes neither calls, globals nor functions leaves a machine at the same place. -/
theorem At.calm {m k k' : Machine} {f : Function} {j base : Nat} {rest : List Frame}
    (hk : m.At f j base rest k) (h : k.Calm k') : m.At f j base rest k' :=
  ⟨h.frames.trans hk.frames, h.globals.trans hk.globals,
    fun g hg => hk.functions g (h.functions g hg)⟩

/-- What an instruction of a function, at place `i`, makes of a machine with the calls `rest`
below. -/
structure Moves (m : Machine) (f : Function) (i base : Nat) (rest : List Frame)
    (instruction : Instruction) (m' : Machine) : Prop where
  globals : ∀ x ∈ m.globals, x ∈ m'.globals
  defines : ∀ index x, instruction.definition? = some index →
    f.chunk.literals[index]? = some (.string x) →
    x ∈ m'.globals
  makes : ∀ g, m'.heap.Has g → m.heap.Has g ∨ m'.frames = ⟨f, i + 1, base⟩ :: rest ∧
    ∃ index, instruction = .literal index ∧ f.chunk.literals[index]? = some (.function g)
  frames : ∀ fr ∈ m'.frames, fr ∈ rest ∨ fr.function = f ∧ fr.cursor ∈ instruction.targets i ∨
    fr.cursor = 0 ∧ m.heap.Has fr.function

/-- Going on at another place of the function. -/
theorem At.moves {m k : Machine} {f : Function} {i j base : Nat} {rest : List Frame}
    {instruction : Instruction} (hk : m.At f j base rest k) (hj : j ∈ instruction.targets i)
    (hdefines : instruction.definition? = none) :
    m.Moves f i base rest instruction k := by
  refine ⟨fun x hx => ?_, fun index x hindex => ?_, fun g hg => .inl (hk.functions g hg),
    fun fr hfr => ?_⟩
  · rw [hk.globals]
    exact hx
  · rw [hdefines] at hindex
    cases hindex
  · rw [hk.frames] at hfr
    rcases List.mem_cons.mp hfr with rfl | hfr
    · exact .inr (.inl ⟨rfl, hj⟩)
    · exact .inl hfr

theorem Moves.calm {m k k' : Machine} {f : Function} {i base : Nat} {rest : List Frame}
    {instruction : Instruction} (hk : m.Moves f i base rest instruction k) (h : k.Calm k') :
    m.Moves f i base rest instruction k' := by
  refine ⟨fun x hx => ?_, fun index x hindex hx => ?_, fun g hg => ?_, fun fr hfr => ?_⟩
  · rw [h.globals]
    exact hk.globals x hx
  · rw [h.globals]
    exact hk.defines index x hindex hx
  · rw [h.frames]
    exact hk.makes g (h.functions g hg)
  · rw [h.frames] at hfr
    exact hk.frames fr hfr

/-- A fault is not about a global, or about one that an instruction names and that is not
defined. -/
def Blames (m : Machine) (f : Function) (instruction : Instruction) (e : Fault) : Prop :=
  ∀ x, e = .undefinedVariable x → x ∉ m.globals ∧
    ∃ index, instruction.global? = some index ∧ f.chunk.literals[index]? = some (.string x)

end Machine

namespace Exec

/-- Machines that are calm after each other: only an undefined global is not tolerated. -/
theorem tolerant_calm : Tolerant Machine.Calm fun e => ∀ x, e ≠ .undefinedVariable x :=
  ⟨fun _ => ⟨rfl, rfl, fun _ h => h⟩, .trans, fun _ _ _ => ⟨rfl, rfl, fun _ h => h⟩,
    fun _ he _ heq => by rw [heq] at he; cases he⟩

theorem relaxed_calm : Relaxed Machine.Calm fun e => ∀ x, e ≠ .undefinedVariable x :=
  ⟨tolerant_calm, fun _ _ => ⟨rfl, rfl, fun _ h => Heap.has_intern h⟩⟩

/-- A computation on a machine gives a result with a property, or a fault with another. -/
structure Ends {α : Type} (x : Exec α) (m : Machine) (Q : α → Machine → Prop) (E : Fault → Prop) :
    Prop where
  ok : ∀ {a m'}, x.run m = .ok a m' → Q a m'
  error : ∀ {e m'}, x.run m = .error e m' → E e

variable {α β : Type} {m : Machine} {E : Fault → Prop} {Q : α → Machine → Prop}
  {P : β → Machine → Prop}

namespace Ends

theorem pure {a : α} (h : Q a m) : Ends (pure a : Exec α) m Q E where
  ok hrun := by
    obtain ⟨rfl, rfl⟩ := EStateM.Result.ok.inj hrun
    exact h
  error hrun := by cases hrun

theorem throw {e : Fault} (h : E e) : Ends (throw e : Exec α) m Q E where
  ok hrun := by cases hrun
  error hrun := by
    obtain ⟨rfl, -⟩ := EStateM.Result.error.inj hrun
    exact h

theorem get {Q : Machine → Machine → Prop} (h : Q m m) : Ends (get : Exec Machine) m Q E where
  ok hrun := by
    obtain ⟨rfl, rfl⟩ := EStateM.Result.ok.inj hrun
    exact h
  error hrun := by cases hrun

theorem modify {Q : Unit → Machine → Prop} {f : Machine → Machine} (h : Q () (f m)) :
    Ends (modify f : Exec Unit) m Q E where
  ok hrun := by
    obtain ⟨-, rfl⟩ := EStateM.Result.ok.inj hrun
    exact h
  error hrun := by cases hrun

/-- What a computation ends in holds for what comes after it, and so does the fault of either. -/
theorem bind {x : Exec α} {f : α → Exec β} (hx : Ends x m Q E)
    (hf : ∀ a m', Q a m' → Ends (f a) m' P E) :
    Ends (x >>= f) m P E where
  ok {b m'} hrun := by
    rw [EStateM.run_bind] at hrun
    cases hfirst : x.run m with
    | ok a m₁ =>
      rw [hfirst] at hrun
      exact (hf a m₁ (hx.ok hfirst)).ok hrun
    | error e m₁ =>
      rw [hfirst] at hrun
      cases hrun
  error {e m'} hrun := by
    rw [EStateM.run_bind] at hrun
    cases hfirst : x.run m with
    | ok a m₁ =>
      rw [hfirst] at hrun
      exact (hf a m₁ (hx.ok hfirst)).error hrun
    | error e' m₁ =>
      rw [hfirst] at hrun
      obtain ⟨rfl, -⟩ := EStateM.Result.error.inj hrun
      exact hx.error hfirst

theorem mono {Q' : α → Machine → Prop} {E' : Fault → Prop} {x : Exec α} (h : Ends x m Q E)
    (hQ : ∀ a m', Q a m' → Q' a m') (hE : ∀ e, E e → E' e) : Ends x m Q' E' :=
  ⟨fun hrun => hQ _ _ (h.ok hrun), fun hrun => hE _ (h.error hrun)⟩

end Ends

section

variable {f : Function} {i j base : Nat} {rest : List Frame} {instruction : Instruction}
  {k : Machine}

theorem blames_other {e : Fault} (h : ∀ x, e ≠ .undefinedVariable x) : m.Blames f instruction e :=
  fun x hx => absurd hx (h x)

/-- What happens on the stack alone does not move the machine. -/
theorem Keeps.ends {x : Exec α} (h : Keeps Machine.Calm (fun e => ∀ x, e ≠ .undefinedVariable x) x)
    (hk : m.At f j base rest k) : Ends x k (fun _ k' => m.At f j base rest k')
    (m.Blames f instruction) :=
  ⟨fun hrun => hk.calm (h.ok hrun), fun hrun => blames_other (h.error hrun).2⟩

/-! ## The parts that look at calls and globals -/

/-- The innermost call is read. -/
theorem ends_frame (hk : k.frames = ⟨f, j, base⟩ :: rest) :
    Ends frame k (fun fr k' => fr = ⟨f, j, base⟩ ∧ k' = k) E := by
  refine .bind (.get (Q := fun a k' => a = k ∧ k' = k) ⟨rfl, rfl⟩) fun a k' h => ?_
  obtain ⟨rfl, rfl⟩ := h
  rw [hk]
  exact .pure ⟨rfl, rfl⟩

/-- A literal is read from the innermost call. -/
theorem ends_literal (hk : k.frames = ⟨f, j, base⟩ :: rest) (index : Nat) :
    Ends (literal index) k (fun l k' => f.chunk.literals[index]? = some l ∧ k' = k)
      (m.Blames f instruction) := by
  refine .bind (ends_frame hk) fun fr k' h => ?_
  obtain ⟨rfl, rfl⟩ := h
  split
  · next l hl => exact .pure ⟨hl, rfl⟩
  · exact .throw (blames_other fun _ he => by cases he)

theorem ends_nameAt (hk : k.frames = ⟨f, j, base⟩ :: rest) (index : Nat) :
    Ends (nameAt index) k (fun name k' => f.chunk.literals[index]? = some (.string name) ∧ k' = k)
      (m.Blames f instruction) := by
  refine .bind (ends_literal hk index) fun l k' h => ?_
  split
  · next name => exact .pure h
  · exact .throw (blames_other fun _ he => by cases he)

/-- A global that an instruction names is read, or it is undefined. -/
theorem ends_getGlobal {name : String} {index : Nat} (hk : k.globals = m.globals)
    (hindex : instruction.global? = some index)
    (hname : f.chunk.literals[index]? = some (.string name)) :
    Ends (getGlobal name) k (fun _ k' => k' = k) (m.Blames f instruction) := by
  refine .bind (.get (Q := fun a k' => a = k ∧ k' = k) ⟨rfl, rfl⟩) fun a k' h => ?_
  obtain ⟨rfl, rfl⟩ := h
  split
  · exact .pure rfl
  · next hnone =>
    refine .throw fun x hx => ?_
    obtain rfl := Fault.undefinedVariable.inj hx
    rw [hk] at hnone
    refine ⟨fun hmem => ?_, index, hindex, hname⟩
    rw [Std.TreeMap.mem_iff_isSome_getElem?, hnone] at hmem
    cases hmem

/-- The cursor of the innermost call is moved. -/
theorem ends_goto (hk : m.At f j base rest k) (cursor : Nat) :
    Ends (goto cursor) k (fun _ k' => m.At f cursor base rest k') E := by
  refine .modify ?_
  rw [hk.frames]
  exact ⟨rfl, hk.globals, hk.functions⟩

/-- Going on after the cursor has been moved. -/
theorem ends_jump (cursor : Nat → Nat) (hk : m.At f (i + 1) base rest k)
    (hcursor : cursor (i + 1) ∈ instruction.targets i) (hdefines : instruction.definition? = none) :
    Ends (do goto (cursor (← frame).cursor); return .next) k
      (fun (_ : Signal) m' => m.Moves f i base rest instruction m') E := by
  refine .bind (ends_frame hk.frames) fun fr k₁ h => ?_
  obtain ⟨rfl, rfl⟩ := h
  exact .bind (ends_goto hk _) fun _ k₂ hk₂ => .pure (hk₂.moves hcursor hdefines)

/-! ## Instructions -/

/-- The function among the literals becomes an object. -/
theorem moves_makeFunction (hk : m.At f (i + 1) base rest k) {index : Nat} {g : Function}
    (hg : f.chunk.literals[index]? = some (.function g)) :
    m.Moves f i base rest (.literal index) { k with heap := (k.heap.function g).2 } := by
  refine ⟨fun x hx => ?_, fun _ _ hindex => (by cases hindex), fun g' hg' => ?_, fun fr hfr => ?_⟩
  · rw [hk.globals]
    exact hx
  · rcases Heap.has_function hg' with hg' | rfl
    · exact .inl (hk.functions g' hg')
    · exact .inr ⟨hk.frames, index, rfl, hg⟩
  · rcases List.mem_cons.mp (hk.frames ▸ hfr) with rfl | hfr
    · exact .inr (.inl ⟨rfl, List.mem_singleton_self _⟩)
    · exact .inl hfr

/-- A global gets a value. -/
theorem moves_putGlobal (hk : m.At f (i + 1) base rest k) {name : String} {v : Value}
    (hnext : i + 1 ∈ instruction.targets i)
    (hdefines : ∀ index x, instruction.definition? = some index → f.chunk.literals[index]? =
      some (.string x) →
      x = name) :
    m.Moves f i base rest instruction { k with globals := k.globals.insert name v } := by
  refine ⟨fun x hx => ?_, fun index x hindex hx => ?_, fun g hg => .inl (hk.functions g hg),
    fun fr hfr => ?_⟩
  · rw [hk.globals]
    exact Std.TreeMap.mem_insert.mpr (.inr hx)
  · obtain rfl := hdefines index x hindex hx
    exact Std.TreeMap.mem_insert_self
  · rcases List.mem_cons.mp (hk.frames ▸ hfr) with rfl | hfr
    · exact .inr (.inl ⟨rfl, hnext⟩)
    · exact .inl hfr

/-- A call of a function that is on the heap. -/
theorem moves_enter (hk : m.At f (i + 1) base rest k) {g : Function} (hg : k.heap.Has g)
    (window arguments : Nat) :
    m.Moves f i base rest (.call arguments) { k with frames := ⟨g, 0, window⟩ :: k.frames } := by
  refine ⟨fun x hx => ?_, fun _ _ hindex => (by cases hindex),
    fun g' hg' => .inl (hk.functions g' hg'),
    fun fr hfr => ?_⟩
  · rw [hk.globals]
    exact hx
  · rcases List.mem_cons.mp hfr with rfl | hfr
    · exact .inr (.inr ⟨rfl, hk.functions g hg⟩)
    · rcases List.mem_cons.mp (hk.frames ▸ hfr) with rfl | hfr
      · exact .inr (.inl ⟨rfl, List.mem_singleton_self _⟩)
      · exact .inl hfr

/-- Calls come to their end. -/
theorem moves_end (hk : m.At f (i + 1) base rest k) {frames : List Frame} {stack : Array Value}
    (hframes : frames ⊆ rest) (hdefines : instruction.definition? = none) :
    m.Moves f i base rest instruction { k with frames := frames, stack := stack } := by
  refine ⟨fun x hx => ?_, fun index x hindex => ?_, fun g hg => .inl (hk.functions g hg),
    fun fr hfr => .inl (hframes hfr)⟩
  · rw [hk.globals]
    exact hx
  · rw [hdefines] at hindex
    cases hindex

/-- What happens on the stack alone after an instruction has had its effect. -/
theorem Keeps.after {x : Exec α} (h : Keeps Machine.Calm (fun e => ∀ x, e ≠ .undefinedVariable x) x)
    (hk : m.Moves f i base rest instruction k) :
    Ends x k (fun _ k' => m.Moves f i base rest instruction k') (m.Blames f instruction) :=
  ⟨fun hrun => hk.calm (h.ok hrun), fun hrun => blames_other (h.error hrun).2⟩

/-- A call enters a function that is on the heap, or takes the result of a native. -/
theorem ends_call (hk : m.At f (i + 1) base rest k) (arguments : Nat) :
    Ends (call arguments) k (fun _ m' => m.Moves f i base rest (.call arguments) m')
      (m.Blames f (.call arguments)) := by
  refine .bind (.get (Q := fun a k' => a = k ∧ k' = k) ⟨rfl, rfl⟩) fun a k₁ h => ?_
  obtain ⟨rfl, rfl⟩ := h
  split
  · exact .throw (blames_other fun _ he => by cases he)
  · dsimp only
    split
    · split
      · next hg =>
        rw [enter]
        split
        · exact .throw (blames_other fun _ he => by cases he)
        · refine .bind (.get (Q := fun _ k₂ => k₂ = k₁) rfl) fun a k₂ h => ?_
          subst h
          split
          · exact .throw (blames_other fun _ he => by cases he)
          · exact .modify (moves_enter hk ⟨_, hg⟩ _ _)
      · exact (keeps_callNative tolerant_calm _ _ _).after
          (hk.moves (List.mem_singleton_self _) rfl)
      · exact .throw (blames_other fun _ he => by cases he)
      · exact .throw (blames_other fun _ he => by cases he)
    · exact .throw (blames_other fun _ he => by cases he)
    · exact .throw (blames_other fun _ he => by cases he)

/-- A return ends the innermost call. -/
theorem ends_leave (hk : m.At f (i + 1) base rest k) :
    Ends leave k (fun _ m' => m.Moves f i base rest .ret m') (m.Blames f .ret) := by
  refine .bind ((keeps_pop tolerant_calm).ends hk) fun v k₁ hk₁ =>
    .bind (.get (Q := fun a k' => a = k₁ ∧ k' = k₁) ⟨rfl, rfl⟩) fun a k₂ h => ?_
  obtain ⟨rfl, rfl⟩ := h
  rw [hk₁.frames]
  have hend : m.Moves f i base rest .ret { k₂ with frames := rest, stack := k₂.stack } :=
    moves_end hk₁ (List.Subset.refl _) rfl
  refine .bind (.modify hend) fun _ k₃ hk₃ =>
    .bind ((keeps_truncate tolerant_calm base).after hk₃) fun _ k₄ hk₄ => ?_
  split
  · exact .pure hk₄
  · exact .bind ((keeps_push tolerant_calm v).after hk₄) fun _ k₅ hk₅ => .pure hk₅

/-- Executing an instruction, after the cursor has moved past it. -/
theorem ends_execute (hk : m.At f (i + 1) base rest k) (instruction : Instruction) :
    Ends (execute instruction) k (fun _ m' => m.Moves f i base rest instruction m')
      (m.Blames f instruction) := by
  have next : i + 1 ∈ [i + 1] := List.mem_singleton_self _
  cases instruction with
  | nil | yes | no | pop | getLocal | setLocal | getMember | setLocalMember | equal | greater | less
  | add | subtract | multiply | divide | not | negate | print | yield =>
    exact (keeps_execute relaxed_calm rfl).after (hk.moves next rfl)
  -- a literal makes an object if it is a text or a function
  | literal index =>
    refine .bind (ends_literal hk.frames index) fun l k₁ h => ?_
    obtain ⟨hl, rfl⟩ := h
    refine .bind (Q := fun _ k' => m.Moves f i base rest (.literal index) k') ?_ fun v k₂ hk₂ =>
      .bind ((keeps_push tolerant_calm v).after hk₂) fun _ k₃ hk₃ => .pure hk₃
    cases l with
    | int n | float bits => exact .pure (hk.moves next rfl)
    | string text => exact (keeps_text relaxed_calm text).after (hk.moves next rfl)
    | function g =>
      refine ⟨fun hrun => ?_, fun hrun => by cases hrun⟩
      obtain ⟨-, rfl⟩ := EStateM.Result.ok.inj hrun
      exact moves_makeFunction hk hl
  | defineGlobal index =>
    refine .bind (ends_nameAt hk.frames index) fun name k₁ h => ?_
    obtain ⟨hname, rfl⟩ := h
    refine .bind ((keeps_pop tolerant_calm).ends hk) fun v k₂ hk₂ =>
      .bind (.modify ?_) fun _ _ h => .pure h
    refine moves_putGlobal hk₂ next fun index' x hindex hx => ?_
    obtain rfl := Option.some.inj hindex
    rw [hname] at hx
    exact (Literal.string.inj (Option.some.inj hx)).symm
  | getGlobal index =>
    refine .bind (ends_nameAt hk.frames index) fun name k₁ h => ?_
    obtain ⟨hname, rfl⟩ := h
    refine .bind (ends_getGlobal hk.globals rfl hname) fun v k₂ h => ?_
    subst h
    exact .bind ((keeps_push tolerant_calm v).after (hk.moves next rfl)) fun _ k₃ hk₃ => .pure hk₃
  -- a global that is set was there before
  | setGlobal index =>
    refine .bind (ends_nameAt hk.frames index) fun name k₁ h => ?_
    obtain ⟨hname, rfl⟩ := h
    refine .bind ((keeps_peek tolerant_calm).ends hk) fun v k₂ hk₂ =>
      .bind (Q := fun _ k₃ => k₃ = k₂) (.bind (ends_getGlobal hk₂.globals rfl hname) fun _ _ h =>
        .pure h) fun _ k₃ h => ?_
    subst h
    have hput : m.Moves f i base rest (.setGlobal index)
      { k₃ with globals := k₃.globals.insert name v } :=
      moves_putGlobal hk₂ next fun _ _ hindex => by cases hindex
    exact .bind (.modify hput) fun _ _ h => .pure h
  | setGlobalMember index member =>
    refine .bind (ends_nameAt hk.frames index) fun name k₁ h => ?_
    obtain ⟨hname, rfl⟩ := h
    refine .bind ((keeps_pop tolerant_calm).ends hk) fun v k₂ hk₂ =>
      .bind (ends_getGlobal hk₂.globals rfl hname) fun _ k₃ h => ?_
    subst h
    refine .bind ((keeps_operand tolerant_calm _).ends hk₂) fun r k₄ hk₄ => ?_
    have hput : m.Moves f i base rest (.setGlobalMember index member)
        { k₄ with globals := k₄.globals.insert name r.1 } :=
      moves_putGlobal hk₄ next fun _ _ hindex => by cases hindex
    exact .bind (.modify hput) fun _ k₅ hk₅ =>
      .bind ((keeps_push tolerant_calm _).after hk₅) fun _ k₆ hk₆ => .pure hk₆
  | jump offset => exact ends_jump (· + offset) hk (List.mem_singleton_self _) rfl
  | jumpIfFalse offset =>
    refine .bind ((keeps_peek tolerant_calm).ends hk) fun v k₁ hk₁ => ?_
    dsimp only
    split
    · exact ends_jump (· + offset) hk₁ (List.mem_cons_of_mem _ List.mem_cons_self) rfl
    · exact .pure (hk₁.moves List.mem_cons_self rfl)
  | loop offset =>
    refine .bind (ends_frame hk.frames) fun fr k₁ h => ?_
    obtain ⟨rfl, rfl⟩ := h
    split
    · exact .throw (blames_other fun _ he => by cases he)
    · exact .bind (ends_goto hk _) fun _ k₂ hk₂ => .pure (hk₂.moves (List.mem_singleton_self _) rfl)
  | call arguments => exact .bind (ends_call hk arguments) fun _ _ h => .pure h
  | ret => exact ends_leave hk
  | stop => exact .bind (.modify (moves_end hk (List.nil_subset _) rfl)) fun _ _ h => .pure h

/-- Reading the next instruction. -/
theorem ends_fetch (hm : m.frames = ⟨f, i, base⟩ :: rest) :
    Ends fetch m
      (fun instruction k => (∃ line, f.chunk.code.toList[i]? = some ⟨instruction, line⟩) ∧
      m.At f (i + 1) base rest k) (fun e => ∀ x, e ≠ .undefinedVariable x) := by
  refine .bind (ends_frame hm) fun fr k h => ?_
  obtain ⟨rfl, rfl⟩ := h
  split
  · next instruction hinstruction =>
    refine .bind (ends_goto ⟨hm, rfl, fun _ h => h⟩ (i + 1)) fun _ k₁ hk₁ => .pure ⟨?_, hk₁⟩
    obtain ⟨p, hp, rfl⟩ := Chunk.instruction?_eq_some hinstruction
    exact ⟨p.line, hp⟩
  · exact .throw fun _ he => by cases he

/-- Without a call there is nothing to execute. -/
theorem ends_step_nil (hm : m.frames = []) : Ends step m (fun _ _ => False) (· = .noFrame) := by
  have hframe : Ends frame m (fun _ _ => False) (· = .noFrame) := by
    refine .bind (.get (Q := fun a _ => a = m) rfl) fun a _ h => ?_
    rw [h, hm]
    exact .throw rfl
  exact .bind (Q := fun _ _ => False) (.bind hframe fun _ _ h => h.elim) fun _ _ h => h.elim

/-- One step of a machine that executes the function `f` at place `i`. -/
theorem ends_step (hm : m.frames = ⟨f, i, base⟩ :: rest) :
    Ends step m
      (fun _ m' => ∃ instruction line, f.chunk.code.toList[i]? = some ⟨instruction, line⟩ ∧
        m.Moves f i base rest instruction m')
      fun e => ∀ x, e = .undefinedVariable x → ∃ instruction line,
        f.chunk.code.toList[i]? = some ⟨instruction, line⟩ ∧ x ∉ m.globals ∧
          ∃ index, instruction.global? = some index ∧
          f.chunk.literals[index]? = some (.string x) := by
  refine .bind ((ends_fetch hm).mono (fun _ _ h => h) fun e he x hx => absurd hx (he x))
    fun instruction k h => ?_
  obtain ⟨⟨line, hline⟩, hk⟩ := h
  exact (ends_execute hk instruction).mono (fun _ m' h => ⟨instruction, line, hline, h⟩)
    fun e he x hx => ⟨instruction, line, hline, he x hx⟩

end

end Exec

end EntityScript
