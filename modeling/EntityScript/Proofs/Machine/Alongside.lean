/-
# Runs on the two sides

On the two sides of a library machines go through the same steps (`Sides.Running.steps`):
instructions in the same place have the same shape, so they differ at most in the number of a
literal, and the literals are the same.  By induction over the budget calls come to the same, too,
and so do calls of `resume`, one after the other (`Sides.Even.sessions`): they end in the same way
with the same text, and what an error says about the active calls differs in the lines only.
-/
import EntityScript.Proofs.Machine.Sides
import EntityScript.Proofs.Machine.Reachability
import EntityScript.Proofs.Machine.Surroundings
import EntityScript.Proofs.Machine.Watch

namespace EntityScript

/-! ## Instructions of the same shape -/

namespace Instruction

/-- Of two literals that an instruction is made to name the second one counts. -/
theorem naming_naming (instruction : Instruction) (i j : Nat) :
    (instruction.naming i).naming j = instruction.naming j := by
  cases instruction <;> rfl

/-- An instruction that is made to name its own literal stays the same. -/
theorem naming_literal (instruction : Instruction) :
    instruction.naming (instruction.literal?.getD 0) = instruction := by
  cases instruction <;> rfl

/-- Instructions of the same shape differ at most in the number of a literal. -/
theorem naming_of_shape {instruction instruction' : Instruction} {shapes shapes' : List Shape}
    (h : instruction.shape shapes = instruction'.shape shapes') :
    (∃ i, instruction' = instruction.naming i) ∧
      instruction.literal?.bind (shapes[·]?) = instruction'.literal?.bind (shapes'[·]?) := by
  obtain ⟨hnaming, hliteral⟩ := Prod.mk.inj h
  refine ⟨⟨instruction'.literal?.getD 0, ?_⟩, hliteral⟩
  rw [← naming_naming instruction 0, hnaming, naming_naming, naming_literal]

end Instruction

namespace Sides

variable {S : Sides} {f f' : Function} {d i : Nat} {m m' : Machine}

/-- The instruction in the place of another. -/
theorem Continues.instruction (hf : S.Continues d f f') {p : Placed}
    (hp : f.chunk.code.toList[i + d]? = some p) :
    ∃ p', f'.chunk.code.toList[i]? = some p' ∧
      p.instruction.shape (Literal.shapes S.renamed f.chunk.literals) =
        p'.instruction.shape (Literal.shapes id f'.chunk.literals) := by
  have hcode := congrArg (·[i]?) hf.code
  simp only [codeShape, List.getElem?_drop, List.getElem?_map, Nat.add_comm d i, hp,
    Option.map_some] at hcode
  obtain ⟨p', hp', hshape⟩ := Option.map_eq_some_iff.mp hcode.symm
  exact ⟨p', hp', hshape.symm⟩

/-- Literals in the same place of two instructions. -/
theorem Continues.literal (hf : S.Continues d f f') {index index' : Nat} {l : Literal}
    (hl : f.chunk.literals[index]? = some l)
    (hsame : (Literal.shapes S.renamed f.chunk.literals)[index]? =
      (Literal.shapes id f'.chunk.literals)[index']?) :
    ∃ l', f'.chunk.literals[index']? = some l' ∧ S.SameLiteral l l' := by
  rw [Literal.getElem?_shapes, Literal.getElem?_shapes, hl] at hsame
  obtain ⟨l', hl', hshape⟩ := Option.map_eq_some_iff.mp hsame.symm
  refine ⟨l', hl', sameLiteral_of_shape hshape.symm (fun g hg => hf.known g ?_) ?_ ?_⟩
  · exact Literal.family_subset_familyAll (List.mem_of_getElem? hl) hg
  · rintro g rfl
    exact hf.holds.literal (List.mem_of_getElem? hl)
  · rintro g rfl
    exact hf.holds'.literal (List.mem_of_getElem? hl')

/-- Where the first function names a text, the second one names the same text at the same place. -/
theorem Continues.names (hf : S.Continues d f f') {index index' : Nat} {x : String}
    (hx : f.chunk.literals[index]? = some (.string x))
    (hsame : (Literal.shapes S.renamed f.chunk.literals)[index]? =
      (Literal.shapes id f'.chunk.literals)[index']?) :
    Correspondence.Names f f' index index' := by
  obtain ⟨l', hl', hl⟩ := hf.literal hx hsame
  cases hl with
  | plain => exact .name x hx hl'

/-- Instructions in the same place do the same. -/
theorem Continues.matches (hf : S.Continues d f f') {p p' : Placed}
    (hp : f.chunk.code.toList[i + d]? = some p) (hp' : f'.chunk.code.toList[i]? = some p')
    (hshape : p.instruction.shape (Literal.shapes S.renamed f.chunk.literals) =
      p'.instruction.shape (Literal.shapes id f'.chunk.literals)) :
    S.correspondence.Matches f (i + d + 1) f' (i + 1) p.instruction p'.instruction := by
  have hinstruction := Chunk.instruction?_of_getElem? hp
  have hinstruction' := Chunk.instruction?_of_getElem? hp'
  obtain ⟨bodies, hmade⟩ := hf.holds.madeOf
  obtain ⟨body, -, hbalanced⟩ := hmade.balanced
  obtain ⟨bodies', hmade'⟩ := hf.holds'.madeOf
  obtain ⟨body', -, hbalanced'⟩ := hmade'.balanced
  have hnames := hbalanced.names _ _ hinstruction
  have hback := hbalanced'.back i
  rw [hinstruction'] at hback
  obtain ⟨⟨index', hsame⟩, hliteral⟩ := Instruction.naming_of_shape hshape
  rw [hsame] at hliteral hback ⊢
  -- where a jump leads both functions go on in the same way
  have hplace (j : Nat) : S.correspondence.place f (j + d) f' j := ⟨d, rfl, hf⟩
  cases hcase : p.instruction with
  | literal index =>
    rw [hcase] at hnames hliteral
    obtain ⟨l, hl⟩ := hnames
    obtain ⟨l', hl', hll'⟩ := hf.literal hl hliteral
    exact .literal (.literal hl hl' hll')
  | defineGlobal index =>
    rw [hcase] at hnames hliteral
    obtain ⟨x, hx⟩ := hnames
    exact .defineGlobal (hf.names hx hliteral)
  | getGlobal index =>
    rw [hcase] at hnames hliteral
    obtain ⟨x, hx⟩ := hnames
    exact .getGlobal (hf.names hx hliteral)
  | setGlobal index =>
    rw [hcase] at hnames hliteral
    obtain ⟨x, hx⟩ := hnames
    exact .setGlobal (hf.names hx hliteral)
  | setGlobalMember index member =>
    rw [hcase] at hnames hliteral
    obtain ⟨x, hx⟩ := hnames
    exact .setGlobalMember member (hf.names hx hliteral)
  | jump offset => exact .jump ((show i + d + 1 + offset = i + 1 + offset + d by omega) ▸ hplace _)
  | jumpIfFalse offset =>
    exact .jumpIfFalse ((show i + d + 1 + offset = i + 1 + offset + d by omega) ▸ hplace _)
  | loop offset =>
    have hle : offset ≤ i + 1 := hback offset (by rw [hcase]; rfl)
    refine .loop (iff_of_false (by omega) (by omega)) fun _ => ?_
    rw [show i + d + 1 - offset = i + 1 - offset + d by omega]
    exact hplace _
  | nil | yes | no | pop | getLocal | setLocal | getMember | setLocalMember | equal | greater | less
  | add | subtract | multiply | divide | not | negate | print | call | ret | stop
  | yield => exact .same rfl rfl

/-! ## Steps -/

/-- Machines on the two sides, of which the first is aligned with its code. -/
structure Running (S : Sides) (m m' : Machine) : Prop where
  aligned : m.Aligned S.lib
  frames : m.frames ≠ []
  limit : m.stack.size ≤ stackLimit
  machines : S.correspondence.Machines m m'

/-- The two sides take the same steps. -/
theorem Running.steps (fair : S.Fair) (h : S.Running m m') :
    Exec.Parallel S.correspondence.Alike Exec.step Exec.step m m'
      (Exec.Pair Eq S.correspondence.Machines) := by
  obtain ⟨fs, fs', hcalls, hm⟩ := h.machines
  cases hcalls with
  | nil => exact absurd hm.frames h.frames
  | @cons fr fr' rest rest' hgoing hrest =>
    obtain ⟨⟨d, hcursor, hf⟩, hbase⟩ := id hgoing
    -- the cursor is at an instruction
    obtain ⟨-, hwindows⟩ := h.aligned.windows.resolve_left fun hnil => h.frames hnil.1
    rw [hm.frames] at hwindows
    obtain ⟨hholds, hlt, hsize, -, -⟩ := hwindows
    obtain ⟨p, hp⟩ : ∃ p, fr.function.chunk.code.toList[fr.cursor]? = some p :=
      ⟨_, List.getElem?_eq_getElem hlt⟩
    have hinstruction := Chunk.instruction?_of_getElem? hp
    obtain ⟨p', hp', hshape⟩ := hf.instruction (hcursor ▸ hp)
    have hinstruction' := Chunk.instruction?_of_getElem? hp'
    have hmatches := hf.matches (hcursor ▸ hp) hp' hshape
    rw [← hcursor] at hmatches
    have hnext : S.correspondence.Waiting { fr with cursor := fr.cursor + 1 }
      { fr' with cursor := fr'.cursor + 1 } :=
      ⟨⟨⟨d, by dsimp only; omega, hf⟩, hbase⟩, hf.name⟩
    by_cases hyield : p.instruction = .yield
    · -- a pause on both sides
      have hyield' : p'.instruction = .yield := by
        obtain ⟨⟨index, hsame⟩, -⟩ := Instruction.naming_of_shape hshape
        rw [hsame, hyield]
        rfl
      rw [Exec.Parallel, Exec.run_step hm.frames hinstruction,
        Exec.run_step hm.frames' hinstruction', hyield, hyield']
      exact .ok (.mk rfl ((hm.withFrames _ _).machines (.cons hnext.going hrest)))
    · obtain ⟨bodies, hmade⟩ := hholds.madeOf
      obtain ⟨body, -, hbalanced⟩ := hmade.balanced
      have hspares : S.correspondence.Spares fr.base m.stack.size p.instruction := by
        refine ⟨.inl ?_, fun slot hslot => ?_⟩
        · have hroom := hbalanced.room _ _ hinstruction
          show 1 + p.instruction.needs ≤ m.stack.size + 1
          omega
        · obtain ⟨-, -, -, -, hpositive, -⟩ := hbalanced.slots _ _ slot hinstruction hslot
          show 1 ≤ fr.base + slot
          omega
      refine (Exec.parallel_step (lawful fair) hm hp hp' hyield hnext hrest hmatches hspares).mono
        ?_
      rintro _ _ _ _ (hk | hk | hk) <;> exact .mk rfl hk

end Sides

/-! ## Runs -/

/-- How a call ended, with the names of the functions that were active if it failed. -/
inductive Ending where
  | exited (e : Exit)
  | faulted (fault : Fault) (functions : List (Option String))
  | unfinished
deriving DecidableEq, Repr

/-- The ending of a call, without the lines of a trace. -/
def Outcome.ending : Outcome → Ending
  | .exited e => .exited e
  | .faulted e => .faulted e.fault (e.trace.map TraceFrame.function)
  | .unfinished => .unfinished

/-- What calls of `resume` come to, one for each budget: how each of them ends, and the text that it
prints. -/
def Machine.sessions : List Nat → Machine → List (Ending × String)
  | [], _ => []
  | budget :: budgets, m =>
    ((m.resume budget).outcome.ending, (m.resume budget).text) :: sessions budgets
      (m.resume budget).machine

namespace Sides

/-- Machines on the two sides between two calls: both can go on, in the same way, or neither can. -/
inductive Even (S : Sides) (m m' : Machine) : Prop where
  | goes : m.IsOpen → m'.IsOpen → S.Running m m' → Even S m m'
  | ends : ¬ m.IsOpen → ¬ m'.IsOpen → m'.status.name = m.status.name → Even S m m'

/-- Calls that come to the same. -/
structure SameRun (S : Sides) (r r' : Run) : Prop where
  ending : r'.outcome.ending = r.outcome.ending
  text : r'.text = r.text
  even : S.Even r.machine r'.machine

variable {S : Sides} {m m' : Machine}

/-- What a machine is said to be doing does not matter. -/
theorem Running.withStatus (h : S.Running m m') (status status' : Status) :
    S.Running { m with status := status } { m' with status := status' } :=
  ⟨⟨h.aligned.heap, h.aligned.windows, h.aligned.own⟩, h.frames, h.limit,
    h.machines.congr rfl rfl rfl rfl rfl rfl rfl rfl rfl rfl⟩

/-- Traces of machines that are alike are of functions with the same names. -/
theorem functions_of_alike (h : S.correspondence.Alike m m') :
    m'.trace.map TraceFrame.function = m.trace.map TraceFrame.function := by
  have htrace := h.trace
  generalize m.trace = trace at htrace ⊢
  generalize m'.trace = trace' at htrace ⊢
  induction htrace with
  | nil => rfl
  | cons hab _ ih => exact congrArg₂ List.cons hab ih

theorem not_isOpen_running {m : Machine} (h : m.status = .running) : ¬ m.IsOpen := by
  rintro (hready | hsuspended)
  · cases h.symm.trans hready
  · cases h.symm.trans hsuspended

/-- A machine whose script has ended is not resumed. -/
theorem not_isOpen_finished (m : Machine) : ¬ (m.exited .finished).IsOpen := by
  rintro (hready | hsuspended)
  · cases hready
  · cases hsuspended

theorem not_isOpen_failed (m : Machine) (e : RuntimeError) : ¬ (m.failed e).IsOpen := by
  rintro (hready | hsuspended)
  · cases hready
  · cases hsuspended

/-- From machines that are running the two sides come to the same. -/
theorem Running.interpret (fair : S.Fair) (h : S.Running m m') (hstatus : m.status = .running)
    (hstatus' : m'.status = .running) (n : Nat) (text : String) :
    S.SameRun (m.interpret n text) (m'.interpret n text) := by
  induction n generalizing m m' text with
  | zero =>
    exact ⟨rfl, rfl, .ends (not_isOpen_running hstatus) (not_isOpen_running hstatus')
      (congrArg Status.name (hstatus'.trans hstatus.symm))⟩
  | succ n ih =>
    have hsteps := h.steps fair
    rw [Exec.Parallel] at hsteps
    rcases h.aligned.step h.frames h.limit with ⟨signal, k, hstep, hlimit, haligned, -, -,
      hgoes⟩ | ⟨e, k, hstep, -⟩
    · -- both take a step
      rw [hstep] at hsteps
      generalize hstep' : Exec.step.run m' = r' at hsteps
      cases hsteps with
      | @ok _ _ _ k' hpair =>
        cases hpair with
        | mk hsame hk =>
          subst hsame
          have hdoing := (Exec.contained_step.ok hstep).2.trans hstatus
          have hdoing' := (Exec.contained_step.ok hstep').2.trans hstatus'
          cases signal with
          | next =>
            rw [Machine.interpret_next n text hstep, Machine.interpret_next n text hstep']
            exact ih ⟨haligned, hgoes.resolve_left (by simp), hlimit, hk⟩ hdoing hdoing' text
          | printed line =>
            rw [Machine.interpret_printed n text hstep, Machine.interpret_printed n text hstep']
            exact ih ⟨haligned, hgoes.resolve_left (by simp), hlimit, hk⟩ hdoing hdoing'
              (text ++ line)
          | exit x =>
            rw [Machine.interpret_exit n text hstep, Machine.interpret_exit n text hstep']
            refine ⟨rfl, rfl, ?_⟩
            cases x with
            | yielded =>
              have hrunning : S.Running k k' := ⟨haligned, hgoes.resolve_left (by simp), hlimit, hk⟩
              exact .goes (.inr rfl) (.inr rfl) (hrunning.withStatus _ _)
            | finished => exact .ends (not_isOpen_finished k) (not_isOpen_finished k') rfl
    · -- both fail
      rw [hstep] at hsteps
      generalize hstep' : Exec.step.run m' = r' at hsteps
      cases hsteps with
      | @error _ _ k' halike =>
        rw [Machine.interpret_failed n text hstep, Machine.interpret_failed n text hstep']
        exact ⟨congrArg (Ending.faulted e) (functions_of_alike halike), rfl,
          .ends (not_isOpen_failed k _) (not_isOpen_failed k' _) rfl⟩

/-- One call of `resume` comes to the same on both sides, and leaves machines that are even again.
-/
theorem Even.resume (fair : S.Fair) (h : S.Even m m') (budget : Nat) :
    S.SameRun (m.resume budget) (m'.resume budget) := by
  cases h with
  | goes hopen hopen' hrunning =>
    rw [hopen.resume, hopen'.resume]
    exact (hrunning.withStatus _ _).interpret fair rfl rfl budget ""
  | ends hclosed hclosed' hname =>
    have hrefuse {k : Machine} (hk : ¬ k.IsOpen) : k.resume budget = k.refuse := by
      rw [Machine.resume]
      split
      · next hready => exact absurd (.inl hready) hk
      · next hsuspended => exact absurd (.inr hsuspended) hk
      · rfl
    rw [hrefuse hclosed, hrefuse hclosed']
    refine ⟨?_, rfl, .ends hclosed hclosed' hname⟩
    show Ending.faulted (.notResumable m'.status.name) [] =
      .faulted (.notResumable m.status.name) []
    rw [hname]

/-- However often the machines on the two sides are resumed, they come to the same. -/
theorem Even.sessions (fair : S.Fair) (h : S.Even m m') (budgets : List Nat) :
    m'.sessions budgets = m.sessions budgets := by
  induction budgets generalizing m m' with
  | nil => rfl
  | cons budget budgets ih =>
    have hrun := h.resume fair budget
    rw [Machine.sessions, Machine.sessions, hrun.ending, hrun.text, ih hrun.even]

end Sides

end EntityScript
