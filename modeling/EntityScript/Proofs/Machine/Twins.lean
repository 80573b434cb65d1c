/-
# Machines with and without pauses

The functions of the second machine are those of the first without pauses; the two have the same
stack, globals and texts (`Correspondence.pauseless`).  An instruction that is not a pause does the
same to both, down to the fault and its trace if it fails; a pause of the first changes nothing that
the second could see (`Machine.Twins.steps`).
-/
import EntityScript.Proofs.Code.Pauses
import EntityScript.Proofs.Machine.Heap
import EntityScript.Proofs.Machine.Lockstep
import Mathlib.Logic.Function.Basic

namespace EntityScript

section

variable {renamed : FunctionId → FunctionId}

/-- An object and the one that is in its place on the other machine. -/
inductive Object.Twin (renamed : FunctionId → FunctionId) : Object → Object → Prop where
  | string (text : String) : Object.Twin renamed (.string text) (.string text)
  | native (n : Native) : Object.Twin renamed (.native n) (.native n)
  | function {f f' : Function} : Function.Twin renamed f f' →
    Object.Twin renamed (.function f) (.function f')

/-! ## Heaps -/

/-- The objects of one heap have their twins at the same places of the other. -/
structure Heap.Twins (renamed : FunctionId → FunctionId) (h h' : Heap) : Prop where
  objects : List.Forall₂ (Object.Twin renamed) h.objects.toList h'.objects.toList
  strings : h'.strings = h.strings
  functions : ∀ id, h'.functions[renamed id]? = h.functions[id]?

namespace Heap.Twins

variable {h h' : Heap}

theorem empty : Heap.Twins renamed .empty .empty :=
  ⟨.nil, rfl, fun _ => by rw [Heap.empty]; simp⟩

/-- The next object has the same reference on twin heaps. -/
theorem nextRef_eq (hh : Heap.Twins renamed h h') : h'.nextRef = h.nextRef := by
  have hsize := hh.objects.length_eq
  rw [Array.length_toList, Array.length_toList] at hsize
  rw [nextRef, nextRef, hsize]

/-- A reference leads to an object and to its twin, or to nothing. -/
theorem get? (hh : Heap.Twins renamed h h') (ref : Ref) :
    h.get? ref = none ∧ h'.get? ref = none ∨
      ∃ o o', h.get? ref = some o ∧ h'.get? ref = some o' ∧ Object.Twin renamed o o' := by
  rw [Heap.get?, Heap.get?, ← Array.getElem?_toList, ← Array.getElem?_toList]
  rcases Nat.lt_or_ge ref.index h.objects.toList.length with hlt | hge
  · have hlt' : ref.index < h'.objects.toList.length := hh.objects.length_eq ▸ hlt
    exact .inr ⟨_, _, List.getElem?_eq_getElem hlt, List.getElem?_eq_getElem hlt',
      hh.objects.get hlt hlt'⟩
  · have hge' : h'.objects.toList.length ≤ ref.index := hh.objects.length_eq ▸ hge
    exact .inl ⟨List.getElem?_eq_none hge, List.getElem?_eq_none hge'⟩

theorem push (hh : Heap.Twins renamed h h') {o o' : Object} (ho : Object.Twin renamed o o') :
    List.Forall₂ (Object.Twin renamed) (h.objects.push o).toList (h'.objects.push o').toList := by
  rw [Array.toList_push, Array.toList_push]
  exact List.rel_append hh.objects (.cons ho .nil)

/-- A text is made in the same place, or found there. -/
theorem intern (hh : Heap.Twins renamed h h') (text : String) :
    (h'.intern text).1 = (h.intern text).1 ∧
    Heap.Twins renamed (h.intern text).2 (h'.intern text).2 := by
  rw [Heap.intern, Heap.intern, hh.strings]
  split
  · exact ⟨rfl, hh⟩
  · exact ⟨hh.nextRef_eq, hh.push (.string text), by rw [hh.nextRef_eq], hh.functions⟩

theorem function (hrenamed : renamed.Injective) (hh : Heap.Twins renamed h h') {f f' : Function}
    (hf : Function.Twin renamed f f') :
    (h'.function f').1 = (h.function f).1 ∧
    Heap.Twins renamed (h.function f).2 (h'.function f').2 := by
  rw [Heap.function, Heap.function, hf.id_eq, hh.functions]
  split
  · exact ⟨rfl, hh⟩
  · refine ⟨hh.nextRef_eq, hh.push (.function hf), hh.strings, fun id => ?_⟩
    rw [Std.TreeMap.getElem?_insert, Std.TreeMap.getElem?_insert, hh.nextRef_eq]
    by_cases hid : f.id = id
    · rw [hid, if_pos Std.ReflCmp.compare_self, if_pos Std.ReflCmp.compare_self]
    · rw [if_neg fun heq => hid (hrenamed (Std.LawfulEqOrd.eq_of_compare heq)),
        if_neg fun heq => hid (Std.LawfulEqOrd.eq_of_compare heq), hh.functions]

theorem native (hh : Heap.Twins renamed h h') (n : Native) :
    (h'.native n).1 = (h.native n).1 ∧ Heap.Twins renamed (h.native n).2 (h'.native n).2 :=
  ⟨hh.nextRef_eq, hh.push (.native n), hh.strings, hh.functions⟩

end Heap.Twins

/-! ## The correspondence -/

/-- Machines with the same values, where the second has the functions of the first without their
pauses. -/
def Correspondence.pauseless (renamed : FunctionId → FunctionId) : Correspondence where
  function := Function.Twin renamed
  native _ := True
  literal := Literal.Twin renamed
  place f i f' i' := Function.Twin renamed f f' ∧ i' = packed f.chunk.code.toList i
  heap := Heap.Twins renamed
  value _ _ v v' := v' = v
  trace a b := b = a
  hidden := 0

namespace Correspondence

variable {h h' : Heap}

/-- Every value stands for itself on twin heaps. -/
theorem stands_pauseless (hh : Heap.Twins renamed h h') (v : Value) :
    (pauseless renamed).Stands h h' v v := by
  cases v with
  | object ref =>
    rcases hh.get? ref with ⟨hn, hn'⟩ | ⟨o, o', ho, ho', htwin⟩
    · exact .missing hn hn'
    · refine .object ho ho' ?_
      cases htwin with
      | string text => exact .string text
      | native n => exact .native trivial
      | function hf => exact .function hf
  | nil | bool | int | float | vector | point => exact .plain rfl

/-- Twin literals make the same value. -/
theorem load_pauseless (hrenamed : renamed.Injective) (hh : Heap.Twins renamed h h')
    {l l' : Literal} (hl : Literal.Twin renamed l l') :
    (h'.literal l').1 = (h.literal l).1 ∧ Heap.Twins renamed (h.literal l).2 (h'.literal l').2 := by
  cases hl with
  | int | float => exact ⟨rfl, hh⟩
  | string text => exact ⟨congrArg Value.object (hh.intern text).1, (hh.intern text).2⟩
  | function hf =>
    exact ⟨congrArg Value.object (hh.function hrenamed hf).1, (hh.function hrenamed hf).2⟩

/-- The correspondence of twins is lawful: functions are told apart, called and shown in the same
way. -/
theorem lawful_pauseless (hrenamed : renamed.Injective) : (pauseless renamed).Lawful where
  id_iff hf hg := by rw [Function.Twin.id_eq hf, Function.Twin.id_eq hg, hrenamed.eq_iff]
  name hf := Function.Twin.name_eq hf
  arity hf := Function.Twin.arity_eq hf
  start hf := ⟨hf, (packed_zero _).symm⟩
  traced hab := congrArg TraceFrame.function hab
  stands := by
    rintro h h' _ v hh rfl
    exact stands_pauseless hh v
  plain _ := rfl
  text text := .string text
  load hh hl := ⟨⟨(load_pauseless hrenamed hh hl).2, fun _ _ hv => hv⟩,
    (load_pauseless hrenamed hh hl).1⟩
  answer := by
    intro h h' n vs vs' _ _ hvs
    obtain rfl : vs' = vs := (List.forall₂_eq_eq_eq ▸ hvs.flip)
    cases n.call vs' with
    | ok v => exact .ok rfl
    | error message => exact .error message
  hidden_le := Nat.zero_le 1

end Correspondence

end

open Correspondence

namespace Machine

variable {renamed : FunctionId → FunctionId} {m m' : Machine}

/-- Machines whose calls are the same, but for the pauses. -/
def Twins (renamed : FunctionId → FunctionId) (m m' : Machine) : Prop :=
  (pauseless renamed).Machines m m'

/-- The number of instructions between the cursor and the end of the innermost function. -/
def left (m : Machine) : Nat :=
  match m.frames with
  | fr :: _ => fr.function.chunk.code.toList.length - fr.cursor
  | [] => 0

/-- The line that a call shows, behind an instruction. -/
theorem shown_eq {fr : Frame} {p : Placed}
    (hp : fr.function.chunk.code.toList[fr.cursor]? = some p) :
    Frame.shown { fr with cursor := fr.cursor + 1 } = ⟨fr.function.name, p.line⟩ := by
  rw [Frame.shown, Nat.add_sub_cancel, Chunk.line?, ← Array.getElem?_toList, hp]
  rfl

/-- What a step of the first machine is like for the second: a pause is nothing to it, and it takes
part in every other step. -/
inductive Steps (renamed : FunctionId → FunctionId) (m m' : Machine) : Prop where
  | pause {k : Machine} : Exec.step.run m = .ok (.exit .yielded) k → k.Twins renamed m' →
    k.left < m.left →
    Steps renamed m m'
  | next {k k' : Machine} : Exec.step.run m = .ok .next k → Exec.step.run m' = .ok .next k' →
    k.Twins renamed k' →
    Steps renamed m m'
  | printed {text : String} {k k' : Machine} : Exec.step.run m = .ok (.printed text) k →
    Exec.step.run m' = .ok (.printed text) k' → k.Twins renamed k' → Steps renamed m m'
  | finished {k k' : Machine} : Exec.step.run m = .ok (.exit .finished) k →
    Exec.step.run m' = .ok (.exit .finished) k' → k.Twins renamed k' → Steps renamed m m'
  | failed {e : Fault} {k k' : Machine} : Exec.step.run m = .error e k →
    Exec.step.run m' = .error e k' →
    (pauseless renamed).Alike k k' → Steps renamed m m'

/-- A step that both machines take is one of those that are allowed. -/
theorem Steps.of_parallel (h : Exec.Parallel (pauseless renamed).Alike Exec.step Exec.step m m'
    (Exec.Onward (Machine.Twins renamed))) : Steps renamed m m' := by
  rw [Exec.Parallel] at h
  generalize hstep : Exec.step.run m = r at h
  generalize hstep' : Exec.step.run m' = r' at h
  cases h with
  | ok hon =>
    cases hon with
    | next hk => exact .next hstep hstep' hk
    | printed hk => exact .printed hstep hstep' hk
    | finished hk => exact .finished hstep hstep' hk
  | error hk => exact .failed hstep hstep' hk

end Machine

namespace Correspondence

variable {renamed : FunctionId → FunctionId} {f f' : Function} {i index : Nat}

/-- The literals of twin functions have the same indices. -/
theorem loads_pauseless (hf : Function.Twin renamed f f') (index : Nat) :
    (pauseless renamed).Loads f f' index index := by
  rcases hf.literals.getElem? index with ⟨hn, hn'⟩ | ⟨l, l', hl, hl', htwin⟩
  · exact .missing hn hn'
  · exact .literal hl hl' htwin

theorem names_pauseless (hf : Function.Twin renamed f f') (index : Nat) :
    Names f f' index index := by
  rcases hf.literals.getElem? index with ⟨hn, hn'⟩ | ⟨l, l', hl, hl', htwin⟩
  · refine .other (fun x => ?_) fun x => ?_
    · rw [Chunk.literal?, hn]
      exact nofun
    · rw [Chunk.literal?, hn']
      exact nofun
  · cases htwin with
    | string x => exact .name x hl hl'
    | int | float | function =>
      refine .other (fun x => ?_) fun x => ?_
      · rw [Chunk.literal?, hl]
        exact nofun
      · rw [Chunk.literal?, hl']
        exact nofun

/-- An instruction that is no pause does the same as the one that has taken its place. -/
theorem matches_of_moved (hf : Function.Twin renamed f f') {instruction instruction' : Instruction}
    (hmoved : instruction.Moved (packed f.chunk.code.toList) i instruction') :
    (pauseless renamed).Matches f (i + 1) f'
      (packed f.chunk.code.toList i + 1) instruction instruction' := by
  cases hmoved with
  | same hjump =>
    cases instruction with
    | literal index => exact .literal (loads_pauseless hf index)
    | defineGlobal index => exact .defineGlobal (names_pauseless hf index)
    | getGlobal index => exact .getGlobal (names_pauseless hf index)
    | setGlobal index => exact .setGlobal (names_pauseless hf index)
    | setGlobalMember index member => exact .setGlobalMember member (names_pauseless hf index)
    | jump | jumpIfFalse | loop => cases hjump
    | nil | yes | no | pop | getLocal | setLocal | getMember | setLocalMember | equal | greater
    | less | add | subtract | multiply | divide | not | negate | print | call | ret | stop
    | yield => exact .same rfl rfl
  | jump hplace => exact .jump ⟨hf, hplace⟩
  | jumpIfFalse hplace => exact .jumpIfFalse ⟨hf, hplace⟩
  | loop hstart hplace => exact .loop hstart fun hle => ⟨hf, hplace hle⟩

end Correspondence

/-- Twins take the same steps, but for the pauses. -/
theorem Machine.Twins.steps {renamed : FunctionId → FunctionId} (hrenamed : renamed.Injective)
    {m m' : Machine} (h : m.Twins renamed m') : Machine.Steps renamed m m' := by
  obtain ⟨fs, fs', hcalls, h⟩ := h
  cases hcalls with
  | nil =>
    -- no call is active
    exact .failed (Exec.run_step_idle h.frames) (Exec.run_step_idle h.frames') (h.alike .nil)
  | @cons fr fr' rest rest' hgoing hrest =>
    obtain ⟨⟨hf, hcursor⟩, hbase⟩ := id hgoing
    have hcleared := hf.cleared
    cases hp : fr.function.chunk.code.toList[fr.cursor]? with
    | none =>
      -- both cursors are behind the code
      have hp' : fr'.function.chunk.code.toList[fr'.cursor]? = none := by
        rw [hcursor]
        exact hcleared.getElem?_none hp
      have hshown : fr'.shown = fr.shown := by
        rw [Frame.shown, Frame.shown, Chunk.line?, Chunk.line?, ← Array.getElem?_toList,
          ← Array.getElem?_toList, hcursor, hcleared.line_end hp, hf.name_eq]
      have hend : fr.function.chunk.instruction? fr.cursor = none := by
        rw [Chunk.instruction?_eq, hp]
        rfl
      have hend' : fr'.function.chunk.instruction? fr'.cursor = none := by
        rw [Chunk.instruction?_eq, hp']
        rfl
      refine .failed (Exec.run_step_end h.frames hend) ?_ (h.alike (.cons ⟨hgoing, hshown⟩ hrest))
      rw [Exec.run_step_end h.frames' hend', hf.displayName_eq]
    | some p =>
      have hlt : fr.cursor < fr.function.chunk.code.toList.length :=
        (List.getElem?_eq_some_iff.mp hp).1
      by_cases hyield : p.instruction = .yield
      · -- a pause
        refine .pause (k := { m with frames := { fr with cursor := fr.cursor + 1 } :: rest }) ?_ ?_
          ?_
        · rw [Exec.run_step h.frames (Chunk.instruction?_of_getElem? hp), hyield]
          rfl
        · have hafter : (pauseless renamed).Going { fr with cursor := fr.cursor + 1 } fr' :=
            ⟨⟨hf, hcursor.trans (packed_yield hp hyield).symm⟩, hbase⟩
          have hbehind : (pauseless renamed).Abreast m.heap m'.heap
              ({ fr with cursor := fr.cursor + 1 } :: rest) (fr' :: rest')
              { m with frames := { fr with cursor := fr.cursor + 1 } :: rest } m' :=
            ⟨rfl, rfl, h.related, h.stack, h.globals, h.sink, rfl, h.frames'⟩
          exact hbehind.machines (.cons hafter hrest)
        · rw [Machine.left, Machine.left, h.frames]
          exact Nat.sub_succ_lt_self _ _ hlt
      · -- the same instruction on both sides
        obtain ⟨instruction, hp', hmoved⟩ := hcleared.getElem? hp hyield
        rw [← hcursor] at hp'
        have hnext : (pauseless renamed).Waiting { fr with cursor := fr.cursor + 1 }
            { fr' with cursor := fr'.cursor + 1 } := by
          refine ⟨⟨⟨hf, ?_⟩, hbase⟩, ?_⟩
          · exact (congrArg (· + 1) hcursor).trans (packed_succ hp hyield).symm
          · show Frame.shown _ = Frame.shown _
            rw [Machine.shown_eq hp, Machine.shown_eq hp', hf.name_eq]
        have hmatches := matches_of_moved hf hmoved
        rw [← hcursor] at hmatches
        exact .of_parallel (Exec.parallel_step (lawful_pauseless hrenamed) h hp hp' hyield hnext
          hrest hmatches ⟨.inr rfl, fun _ _ => Nat.zero_le _⟩)

end EntityScript
