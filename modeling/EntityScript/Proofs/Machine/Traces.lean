/-
# Traces

The active calls are nested in each other (`Machine.Nested`): each waits at the instruction that has
called the next one, and the outermost is the script itself.  Instructions that succeed keep this
up, and instructions that fail do so before they change a call.  Hence a trace shows the calls that
were active when the failing instruction began, each with the line of the instruction that it was
at, which is a line of its source (`trace_shows_calls`).
-/
import EntityScript.Proofs.Machine.Calls
import EntityScript.Proofs.Machine.Faults
import EntityScript.Proofs.Script.Lines
import Mathlib.Data.List.Chain

namespace EntityScript

namespace Machine

/-- A call waits for another: the last instruction that it executed calls something with as many
arguments as the function of the other has parameters. -/
def WaitsFor (inner outer : Frame) : Prop :=
  0 < outer.cursor ∧ outer.function.chunk.instruction? (outer.cursor - 1) =
    some (.call inner.function.arity)

/-- Calls are nested in each other, the innermost first, within the script of a program. -/
structure Nested (lib : Library) (frames : List Frame) : Prop where
  awaits : frames.IsChain WaitsFor
  bottom : ∀ fr, frames.getLast? = some fr → ∃ unit p, lib.program unit = .ok p ∧
    fr.function = p.main
  depth : frames.length ≤ frameLimit

variable {lib : Library} {host : Host} {m k : Machine} {fr : Frame} {rest frames : List Frame}

/-! ## One step -/

theorem nested_nil (lib : Library) : Nested lib [] :=
  ⟨.nil, nofun, Nat.zero_le _⟩

theorem nested_main {unit : Nat} {p : Program} (hp : lib.program unit = .ok p) (cursor base : Nat) :
    Nested lib [⟨p.main, cursor, base⟩] := by
  refine ⟨.singleton _, fun fr hfr => ?_, (by decide : 1 ≤ frameLimit)⟩
  obtain rfl := Option.some.inj hfr
  exact ⟨unit, p, hp, rfl⟩

/-- The place of the innermost call does not matter, since no call waits for it. -/
theorem Nested.move (N : Nested lib (fr :: rest)) (cursor : Nat) :
    Nested lib ({ fr with cursor := cursor } :: rest) := by
  obtain ⟨hnext, hrest⟩ := List.isChain_cons.mp N.awaits
  refine ⟨List.isChain_cons.mpr ⟨fun next h => hnext next h, hrest⟩, fun last hlast => ?_, N.depth⟩
  cases rest with
  | nil =>
    obtain rfl := Option.some.inj hlast
    exact N.bottom fr rfl
  | cons next rest =>
    rw [List.getLast?_cons_cons] at hlast
    exact N.bottom last (by rw [List.getLast?_cons_cons, hlast])

/-- A call that its caller waits for may be added while there is room. -/
theorem Nested.enter (N : Nested lib (fr :: rest)) {inner : Frame} (hawaits : WaitsFor inner fr)
    (hdepth : rest.length + 1 < frameLimit) : Nested lib (inner :: fr :: rest) := by
  refine ⟨List.isChain_cons_cons.mpr ⟨hawaits, N.awaits⟩, fun last hlast => ?_, hdepth⟩
  rw [List.getLast?_cons_cons] at hlast
  exact N.bottom last hlast

/-- Without the innermost call the others still wait for each other. -/
theorem Nested.leave (N : Nested lib (fr :: rest)) : Nested lib rest := by
  refine ⟨N.awaits.tail, fun last hlast => ?_, Nat.le_of_succ_le N.depth⟩
  cases rest with
  | nil => cases hlast
  | cons next rest => exact N.bottom last (by rw [List.getLast?_cons_cons, hlast])

/-- An instruction that succeeds keeps the calls nested. -/
theorem Nested.turn (N : Nested lib (fr :: rest)) {h : Heap} {s s' : List Value}
    {instruction : Instruction} {signal : Signal}
    (hi : fr.function.chunk.instruction? fr.cursor = some instruction)
    (hturn : Turn h fr rest s instruction signal frames s') : Nested lib frames := by
  cases hturn with
  | stays cursor => exact N.move cursor
  | answers => exact N.move _
  | @enters below arguments ref g hs hbase hget harity hdepth =>
    -- the caller has moved past the instruction that calls, with as many arguments as there are
    -- parameters
    refine (N.move _).enter ⟨Nat.succ_pos _, ?_⟩ hdepth
    rw [harity]
    exact hi
  | returns => exact N.leave
  | ends | stops => exact nested_nil lib

/-! ## All machines -/

/-- A run keeps the calls nested, and as long as it goes on there are some. -/
theorem Aligned.nested (A : m.Aligned lib) (hrun : m.frames ≠ [])
    (hlimit : m.stack.size ≤ stackLimit) (N : Nested lib m.frames) (n : Nat) (text : String) :
    Nested lib (m.interpret n text).machine.frames ∧
      ((m.interpret n text).outcome = .unfinished → (m.interpret n text).machine.frames ≠ []) := by
  induction n generalizing m text with
  | zero => exact ⟨N, fun _ => hrun⟩
  | succ n ih =>
    obtain ⟨fr, rest, hframes⟩ := List.exists_cons_of_ne_nil hrun
    rw [Machine.interpret]
    cases hstep : Exec.step.run m with
    | error e k => exact ⟨nested_nil lib, by simp⟩
    | ok signal k =>
      obtain ⟨instruction, hi, hturn⟩ := A.turn hlimit hframes hstep
      obtain ⟨A', hlimit', hgoes⟩ := A.succeeds hrun hlimit hstep
      have N' : Nested lib k.frames := Nested.turn (hframes ▸ N) hi hturn
      cases signal with
      | next => exact ih A' (hgoes.resolve_left (by simp)) hlimit' N' text
      | printed line => exact ih A' (hgoes.resolve_left (by simp)) hlimit' N' (text ++ line)
      | exit e =>
        cases e with
        | yielded | finished => exact ⟨N', by simp⟩

/-- The calls of a run are nested as long as it goes on. -/
theorem Sound.nested (S : m.Sound lib) (hrun : m.frames ≠ []) (N : Nested lib m.frames) (n : Nat) :
    Nested lib (m.proceed n).machine.frames ∧
      ((m.proceed n).outcome = .unfinished → (m.proceed n).machine.frames ≠ []) := by
  have A := S.aligned hrun
  have A' : ({ m with status := .running } : Machine).Aligned lib := ⟨A.heap, A.windows, A.own⟩
  exact A'.nested hrun S.limit N n ""

/-- The calls of every machine that can be reached are nested. -/
theorem Reachable.nested (hfrom : host.From lib) (hm : Reachable lib host m) :
    Nested lib m.frames := by
  induction hm with
  | new | reset => exact nested_nil lib
  | redirect sink _ ih => exact ih
  | load _ hp => exact nested_main hp 0 0
  | run budget hm ih =>
    have S := (hm.sound hfrom).1
    rw [Machine.run]
    split
    · next hready => exact (S.nested (S.started (.inl hready)) ih budget).1
    · exact ih
  | resume budget hm ih =>
    have S := (hm.sound hfrom).1
    rw [Machine.resume]
    split
    · next hready => exact (S.nested (S.started (.inl hready)) ih budget).1
    · next hsuspended => exact (S.nested (S.started (.inr hsuspended)) ih budget).1
    · exact ih

end Machine

/-! ## What a trace shows -/

/-- The calls of an aligned machine run functions of the library. -/
theorem Windows.holds {lib : Library} {frames : List Frame} {n : Nat} (h : Windows lib frames n) :
    ∀ fr ∈ frames, lib.Holds fr.function := by
  induction frames generalizing n with
  | nil => exact List.forall_mem_nil _
  | cons fr rest ih =>
    obtain ⟨hf, -, -, -, hrest⟩ := h
    exact List.forall_mem_cons.mpr ⟨hf, ih hrest⟩

/-- The script itself has no name. -/
theorem Library.name_main {lib : Library} {unit : Nat} {p : Program}
    (hp : lib.program unit = .ok p) :
    p.main.name = none := by
  obtain ⟨s, body, c, -, -, rfl, -⟩ := resolved_of_compile hp
  rfl

/-- An entry of a trace shows a call at an instruction of its function: it has the name of the
function and the line of the instruction, which is a line of the source that the function was
compiled from. -/
structure TraceFrame.Shows (lib : Library) (fr : Frame) (place : Nat) (t : TraceFrame) : Prop where
  function : t.function = fr.function.name
  line : fr.function.chunk.line? place = some t.line
  compiled : lib.Holds fr.function
  low : 1 ≤ t.line
  high : t.line ≤ lineCount (lib fr.function.id.unit).2

/-- The entry of a trace for a call that is at a place of its function. -/
def Frame.entry (fr : Frame) (place : Nat) : TraceFrame :=
  ⟨fr.function.name, (fr.function.chunk.line? place).getD 0⟩

/-- Where there is an instruction, its line is shown. -/
theorem Frame.shows_entry {lib : Library} {fr : Frame} (hf : lib.Holds fr.function) {place : Nat}
    {instruction : Instruction} (hi : fr.function.chunk.instruction? place = some instruction) :
    (fr.entry place).Shows lib fr place := by
  obtain ⟨q, hq, -⟩ := Option.map_eq_some_iff.mp hi
  have hline : fr.function.chunk.line? place = some q.line := by
    rw [Chunk.line?, hq, Option.map_some]
  obtain ⟨hlow, hhigh⟩ := hf.line_le hline
  have hentry : (fr.entry place).line = q.line := by rw [Frame.entry, hline, Option.getD_some]
  exact ⟨rfl, hentry ▸ hline, hf, hentry ▸ hlow, hentry ▸ hhigh⟩

/-- The trace of calls: the innermost is at its cursor, and every other one at the place before. -/
def Frame.entries (inner : Frame) (rest : List Frame) : List TraceFrame :=
  inner.entry inner.cursor :: rest.map fun outer => outer.entry (outer.cursor - 1)

/-- A trace names the functions of the active calls. -/
theorem Frame.function_entries (inner : Frame) (rest : List Frame) :
    (inner.entries rest).map TraceFrame.function = (inner :: rest).map fun fr =>
    fr.function.name := by
  rw [Frame.entries, List.map_cons, List.map_cons, List.map_map]
  rfl

namespace Machine

variable {lib : Library} {host : Host} {m : Machine} {inner : Frame} {rest : List Frame}

/-- The outermost call is a script, so that the last entry has no name. -/
theorem Nested.unnamed (N : Nested lib (inner :: rest)) :
    ∃ main t unit p, (inner :: rest).getLast? = some main ∧ (inner.entries rest).getLast? = some t ∧
      lib.program unit = .ok p ∧ main.function = p.main ∧ t.function = none := by
  have hmain := List.getLast?_eq_some_getLast (List.cons_ne_nil inner rest)
  obtain ⟨unit, p, hp, hfunction⟩ := N.bottom _ hmain
  have hlast := congrArg List.getLast? (Frame.function_entries inner rest)
  rw [List.getLast?_map, List.getLast?_map, hmain, Option.map_some, hfunction,
    Library.name_main hp] at hlast
  obtain ⟨t, ht, hname⟩ := Option.map_eq_some_iff.mp hlast
  exact ⟨_, t, unit, p, hmain, ht, hp, hfunction, hname⟩

/-- The entry of a call that waits shows the instruction that has called the next inner one. -/
theorem Nested.shows (N : Nested lib (inner :: rest))
    (hholds : ∀ fr ∈ inner :: rest, lib.Holds fr.function) {i : Nat}
    {fr outer : Frame} {t : TraceFrame} (hfr : (inner :: rest)[i]? = some fr)
    (houter : (inner :: rest)[i + 1]? = some outer) (ht : (inner.entries rest)[i + 1]? = some t) :
    WaitsFor fr outer ∧ t.Shows lib outer (outer.cursor - 1) := by
  have hawaits : WaitsFor fr outer := by
    obtain ⟨-, rfl⟩ := List.getElem?_eq_some_iff.mp hfr
    obtain ⟨hi, rfl⟩ := List.getElem?_eq_some_iff.mp houter
    exact N.awaits.getElem i hi
  have hentry : t = outer.entry (outer.cursor - 1) := by
    rw [Frame.entries, List.getElem?_cons_succ, List.getElem?_map, ← List.getElem?_cons_succ,
      houter] at ht
    exact (Option.some.inj ht).symm
  exact ⟨hawaits, hentry ▸ Frame.shows_entry (hholds outer (List.mem_of_getElem? houter)) hawaits.2⟩

/-- A failing instruction has moved the innermost call by one place, and that is where the trace
finds it. -/
theorem trace_stumbled {k : Machine}
    (h : k.frames = { inner with cursor := inner.cursor + 1 } :: rest) :
    k.trace = inner.entries rest := by
  rw [trace, h]
  rfl

/-- A run that fails does so at an instruction of the innermost of some nested calls, which are the
ones in the trace. -/
theorem Reachable.traced (hfrom : host.From lib) (hm : Reachable lib host m)
    {budget : Nat} {r : Run} (hr : r = m.run budget ∨ r = m.resume budget) {e : RuntimeError}
    (he : r.outcome = .faulted e) (hran : ∀ what, e.fault ≠ .notResumable what) :
    ∃ n k k' inner rest instruction, m.Fails budget r e n k k' ∧ k.frames = inner :: rest ∧
      Nested lib (inner :: rest) ∧ (∀ fr ∈ inner :: rest, lib.Holds fr.function) ∧
      inner.function.chunk.instruction? inner.cursor = some instruction ∧
      e.trace = inner.entries rest := by
  obtain ⟨hstatus, n, k, k', hfails, hk⟩ := hm.fails hr he hran
  have S := (hm.sound hfrom).1
  have Sk := (hk.sound hfrom).1
  -- what fails is a machine that runs, so it is not for want of a call
  have hrun : k.frames ≠ [] := by
    obtain ⟨-, hgoes⟩ := S.nested (S.started hstatus) (hm.nested hfrom) n
    have hreached : m.proceed n = ⟨.unfinished, r.text, k⟩ := hfails.reached
    rw [hreached] at hgoes
    exact hgoes rfl
  have A := Sk.aligned hrun
  obtain ⟨inner, rest, hframes⟩ := List.exists_cons_of_ne_nil hrun
  obtain ⟨⟨instruction, hi⟩, hframes'⟩ := A.stumbles Sk.limit hframes hfails.step
  have hholds : ∀ fr ∈ inner :: rest, lib.Holds fr.function := by
    obtain ⟨hnone, -⟩ | ⟨-, hwindows⟩ := A.windows
    · exact absurd hnone hrun
    · exact hframes ▸ hwindows.holds
  exact ⟨n, k, k', inner, rest, instruction, hfails, hframes, hframes ▸ hk.nested hfrom, hholds, hi,
    hfails.trace.trans (trace_stumbled hframes')⟩

end Machine

/-- When a run fails, the trace has one entry for each call that was active when the failing
instruction began, the innermost first, and at least one and at most 16; the last is the script
itself, which has no name.  The first entry shows the line of the failing instruction.  Every other
one shows the line of the instruction at which its call waits, which calls something with as many
arguments as the function of the next inner call has parameters.  All of them are lines of the
sources that the functions were compiled from. -/
theorem trace_shows_calls (lib : Library) (host : Host) (hfrom : host.From lib) (m : Machine)
    (hm : Machine.Reachable lib host m) (budget : Nat) (r : Run)
    (hr : r = m.run budget ∨ r = m.resume budget)
    (e : RuntimeError) (he : r.outcome = .faulted e) (hran : ∀ what, e.fault ≠ .notResumable what) :
    ∃ n k k', n < budget ∧ ({ m with status := .running } : Machine).interpret n "" =
    ⟨.unfinished, r.text, k⟩ ∧
      Exec.step.run k = .error e.fault k' ∧
      e.trace.length = k.frames.length ∧ 1 ≤ e.trace.length ∧ e.trace.length ≤ 16 ∧
      (∃ main t unit p, k.frames.getLast? = some main ∧ e.trace.getLast? = some t ∧
        lib.program unit = .ok p ∧
        main.function = p.main ∧ t.function = none) ∧
      (∃ inner t instruction, k.frames.head? = some inner ∧ e.trace.head? = some t ∧
        inner.function.chunk.instruction? inner.cursor = some instruction ∧
        t.Shows lib inner inner.cursor) ∧
      ∀ i inner outer t, k.frames[i]? = some inner → k.frames[i + 1]? = some outer →
      e.trace[i + 1]? = some t →
        0 < outer.cursor ∧ outer.function.chunk.instruction? (outer.cursor - 1) = some
        (.call inner.function.arity) ∧
        t.Shows lib outer (outer.cursor - 1) := by
  obtain ⟨n, k, k', inner, rest, instruction, hfails, hframes, N, hholds, hi, htrace⟩ :=
    hm.traced hfrom hr he hran
  have hlength : e.trace.length = rest.length + 1 := by
    rw [htrace, Frame.entries, List.length_cons, List.length_map]
  refine ⟨n, k, k', hfails.within, hfails.reached, hfails.step, ?_⟩
  rw [hlength, hframes, htrace]
  refine ⟨rfl, Nat.succ_pos _, N.depth, N.unnamed, ?_, ?_⟩
  · exact ⟨inner, _, instruction, rfl, rfl, hi,
      Frame.shows_entry (hholds inner List.mem_cons_self) hi⟩
  · intro i fr outer t hfr houter ht
    obtain ⟨⟨hlow, hcall⟩, hshows⟩ := N.shows hholds hfr houter ht
    exact ⟨hlow, hcall, hshows⟩

/-- The sum fails in the fourth line, and the script waits at its call in the seventh. -/
theorem trace_shows_calls_failing :
    ∃ n k, ({ Machine.failing with status := .running } : Machine).interpret n "" =
        ⟨.unfinished, (Machine.failing.run 99).text, k⟩ ∧
      ∃ inner outer, k.frames = [inner, outer] ∧
        inner.function.chunk.line? inner.cursor = some 4 ∧
        outer.function.chunk.instruction? (outer.cursor - 1) = some (.call inner.function.arity) ∧
        outer.function.chunk.line? (outer.cursor - 1) = some 7 := by
  obtain ⟨n, k, k', -, hreached, -, hlength, -, -, -,
    ⟨inner, t, -, hinner, ht, -, hfirst⟩, hothers⟩ :=
    trace_shows_calls .failing .empty (Host.from_empty _) _ reachable_failing 99 _
      (.inl rfl) _ failing_fails nofun
  obtain rfl := Option.some.inj ht
  obtain ⟨inner', outer, hframes⟩ := List.length_eq_two.mp hlength.symm
  rw [hframes] at hinner hothers
  obtain rfl := Option.some.inj hinner
  obtain ⟨-, hcall, hsecond⟩ := hothers 0 _ outer _ rfl rfl rfl
  exact ⟨n, k, hreached, _, outer, hframes, hfirst.line, hcall, hsecond.line⟩

end EntityScript
