/-
# The life of a machine

A host loads programs into a machine, runs, resumes and resets it, and redirects its output, in any
order.  Whatever the programs are, every such call leaves the machine in a state that fits its
status (`machine_lifecycle`).  While a program runs, its active calls and its values stay within
their limits, and the outermost call keeps its place at the bottom of the stack (`Machine.Active`);
every instruction either keeps this up, or stops at a `yield`, or leaves nothing behind
(`Exec.lands_step`).
-/
import EntityScript.Proofs.Machine.Effect
import EntityScript.Proofs.Machine.Primitives

namespace EntityScript

namespace Machine

/-- A machine in the midst of a program. -/
structure Active (m : Machine) : Prop where
  frames : m.frames ≠ []
  bottom : ∀ fr, m.frames.getLast? = some fr → fr.base = 0
  depth : m.frames.length ≤ frameLimit
  stack : m.stack.size ≤ stackLimit

/-- The instruction that the innermost call has just executed. -/
def Past (m : Machine) (i : Instruction) : Prop :=
  ∃ fr rest, m.frames = fr :: rest ∧ 0 < fr.cursor ∧
    fr.function.chunk.instruction? (fr.cursor - 1) = some i

/-- What a machine is like after an instruction that has reported a signal. -/
def Lands (m : Machine) : Signal → Prop
  | .next | .printed _ => m.Active
  | .exit .yielded => m.Active ∧ m.Past .yield
  | .exit .finished => m.frames = [] ∧ m.stack = #[]

/-- The second machine has the calls of the first, and no more values than are allowed. -/
def Level (m m' : Machine) : Prop :=
  m'.frames = m.frames ∧ m.Within m'

variable {m m' k : Machine}

/-- A machine stays active with the same calls and no more values than allowed. -/
theorem Active.level (A : m.Active) (h : m.Level m') : m'.Active := by
  obtain ⟨hframes, hwithin⟩ := h
  have hstack := A.stack
  refine ⟨hframes ▸ A.frames, hframes ▸ A.bottom, hframes ▸ A.depth, ?_⟩
  rw [Within] at hwithin
  omega

/-- An active machine has landed after every signal that does not hand control back. -/
theorem Active.lands (A : m.Active) {signal : Signal} (hsignal : ∀ e, signal ≠ .exit e) :
    m.Lands signal := by
  cases signal with
  | next | printed => exact A
  | exit e => exact absurd rfl (hsignal e)

end Machine

namespace Exec

/-- Whether a machine is level with another one depends on neither globals nor objects. -/
theorem lenient_level : Lenient Machine.Level fun e => ∀ what, e ≠ .notResumable what where
  refl m := ⟨rfl, .refl m⟩
  trans h k := ⟨k.1.trans h.1, h.2.trans k.2⟩
  stack _ _ hsize := ⟨rfl, hsize⟩
  fault e he what heq := by
    rw [heq] at he
    cases he
  globals m _ := ⟨rfl, .refl m⟩
  heap m _ := ⟨rfl, .refl m⟩
  undefined _ _ he := by cases he

theorem tolerant_level : Tolerant Machine.Level fun e => ∀ what, e ≠ .notResumable what :=
  lenient_level.toTolerant

variable {α : Type} {m k : Machine} {E : Fault → Prop}

/-- A machine in the midst of a program stays so where the calls are left alone. -/
theorem Keeps.active {x : Exec α} (h : Keeps Machine.Level E x) (A : k.Active) :
    Ends x k (fun _ k' => k'.Active ∧ k'.frames = k.frames) E :=
  ⟨fun hrun => ⟨A.level (h.ok hrun), (h.ok hrun).1⟩, fun hrun => (h.error hrun).2⟩

/-! ## Signals -/

theorem ends_any (x : Exec α) (m : Machine) : Ends x m (fun _ _ => True) fun _ => True :=
  ⟨fun _ => trivial, fun _ => trivial⟩

/-- A computation does not hand control back. -/
abbrev GoesOn (x : Exec Signal) (m : Machine) : Prop :=
  Ends x m (fun signal _ => ∀ e, signal ≠ .exit e) fun _ => True

theorem goesOn_next (m : Machine) : GoesOn (pure .next) m :=
  .pure fun _ h => by cases h

theorem goesOn_bind {x : Exec α} {f : α → Exec Signal} (hf : ∀ a k, GoesOn (f a) k) :
    GoesOn (x >>= f) m :=
  .bind (ends_any x m) fun a k _ => hf a k

theorem goesOn_print (text : String) (m : Machine) : GoesOn (print text) m := by
  refine goesOn_bind fun k _ => ?_
  split
  · exact .pure fun _ h => by cases h
  · exact .throw trivial

/-- Of the instructions that leave the calls alone only `yield` hands control back. -/
theorem goesOn_execute {i : Instruction} (hi : i.isData = true) (hyield : i ≠ .yield)
    (m : Machine) :
    GoesOn (execute i) m := by
  cases i with
  | nil | yes | no | pop | getMember | greater | less | subtract | multiply | divide | not
  | negate =>
    exact goesOn_bind fun _ => goesOn_next
  | getLocal => exact goesOn_bind fun _ _ => goesOn_bind fun _ => goesOn_next
  | literal | defineGlobal | getGlobal | setLocal =>
    iterate 2 refine goesOn_bind fun _ _ => ?_
    exact goesOn_bind fun _ => goesOn_next
  | equal | add | setGlobal =>
    iterate 3 refine goesOn_bind fun _ _ => ?_
    exact goesOn_bind fun _ => goesOn_next
  | setLocalMember =>
    iterate 4 refine goesOn_bind fun _ _ => ?_
    exact goesOn_bind fun _ => goesOn_next
  | setGlobalMember =>
    iterate 5 refine goesOn_bind fun _ _ => ?_
    exact goesOn_bind fun _ => goesOn_next
  | print => exact goesOn_bind fun _ _ => goesOn_bind fun _ => goesOn_print _
  | yield => exact absurd rfl hyield
  | jump | jumpIfFalse | loop | call | ret | stop => cases hi

/-! ## Calls -/

/-- A computation keeps a machine in the midst of its program. -/
abbrev StaysActive (x : Exec α) (m : Machine) : Prop :=
  Ends x m (fun _ k => k.Active) fun e => ∀ what, e ≠ .notResumable what

/-- Moving the cursor keeps a machine active. -/
theorem active_goto (A : k.Active) (cursor : Nat) : StaysActive (goto cursor) k := by
  refine .modify ?_
  split
  · next fr rest hframes =>
    obtain ⟨-, hbottom, hdepth, hstack⟩ := A
    rw [hframes] at hbottom hdepth
    refine ⟨List.cons_ne_nil _ _, fun fr' hfr' => ?_, hdepth, hstack⟩
    cases rest with
    | nil =>
      cases hfr'
      exact hbottom fr rfl
    | cons fr₁ rest => exact hbottom fr' hfr'
  · exact A

/-- Going on at another place. -/
theorem lands_jump (A : k.Active) (cursor : Nat → Nat) :
    Ends (do goto (cursor (← frame).cursor); return .next) k (fun signal k' => k'.Lands signal)
      fun e => ∀ what, e ≠ .notResumable what :=
  .bind ((keeps_frame tolerant_level).active A) fun _ _ hk =>
    .bind (active_goto hk.1 _) fun _ _ hk => .pure hk

/-- A call keeps a machine active: it enters a function above those that are active, or takes the
result of a native. -/
theorem active_call (A : k.Active) (arguments : Nat) : StaysActive (call arguments) k := by
  have hrefused : ∀ {e : Fault}, e.isOrdinary = true →
    ∀ what, e ≠ .notResumable what := lenient_level.fault _
  refine .bind (.get (Q := fun a k' => a = k ∧ k' = k) ⟨rfl, rfl⟩) fun a k₁ h => ?_
  obtain ⟨rfl, rfl⟩ := h
  split
  · exact .throw (hrefused rfl)
  · dsimp only
    split
    · split
      · next f _ =>
        rw [enter]
        split
        · exact .throw (hrefused rfl)
        · refine .bind (.get (Q := fun a k' => a = k₁ ∧ k' = k₁) ⟨rfl, rfl⟩) fun a k₂ h => ?_
          obtain ⟨rfl, rfl⟩ := h
          split
          · exact .throw (hrefused rfl)
          · next hdepth =>
            refine .modify ⟨List.cons_ne_nil _ _, fun fr hfr => ?_,
              Nat.lt_of_not_le hdepth, A.stack⟩
            rw [List.getLast?_cons_of_ne_nil A.frames] at hfr
            exact A.bottom fr hfr
      · exact ((keeps_callNative tolerant_level _ _ _).active A).mono (fun _ _ h => h.1) fun _ h =>
          h
      · exact .throw (hrefused rfl)
      · exact .throw (hrefused rfl)
    · exact .throw (hrefused rfl)
    · exact .throw (hrefused rfl)

/-- The result takes the place of a call that comes to its end; of the outermost call nothing
remains. -/
theorem lands_leave (A : k.Active) :
    Ends leave k (fun signal k' => k'.Lands signal) fun e => ∀ what, e ≠ .notResumable what := by
  refine .bind ((keeps_pop tolerant_level).active A) fun v k₁ hk₁ =>
    .bind (.get (Q := fun a k' => a = k₁ ∧ k' = k₁) ⟨rfl, rfl⟩) fun a k₂ h => ?_
  obtain ⟨rfl, rfl⟩ := h
  obtain ⟨hframes, hbottom, hdepth, hstack⟩ := hk₁.1
  split
  · next fr rest heq =>
    rw [heq] at hbottom hdepth
    refine .bind (.modify (Q := fun _ k₃ => k₃ = { k₂ with frames := rest }) rfl) fun _ k₃ h₃ => ?_
    subst h₃
    refine .bind (.modify (Q := fun _ k₄ =>
      k₄ = { k₂ with frames := rest, stack := k₂.stack.take fr.base }) rfl)
      fun _ k₄ h₄ => ?_
    subst h₄
    cases rest with
    | nil =>
      refine .pure ⟨rfl, ?_⟩
      simp [hbottom fr rfl]
    | cons fr₁ rest =>
      have A' : ({ k₂ with frames := fr₁ :: rest, stack := k₂.stack.take fr.base } :
        Machine).Active := by
        refine ⟨List.cons_ne_nil _ _, fun fr' hfr' => hbottom fr' hfr',
          Nat.le_of_succ_le hdepth, ?_⟩
        dsimp only
        rw [(by simp : (k₂.stack.take fr.base).size = min fr.base k₂.stack.size)]
        exact Nat.le_trans (Nat.min_le_right _ _) hstack
      exact .bind ((keeps_push tolerant_level v).active A') fun _ _ hk => .pure hk.1
  · exact .throw (lenient_level.fault _ rfl)

/-! ## Instructions -/

/-- Executing an instruction, after the cursor has moved past it. -/
theorem lands_execute (A : k.Active) {i : Instruction} (hpast : k.Past i) :
    Ends (execute i) k (fun signal k' => k'.Lands signal) fun e =>
    ∀ what, e ≠ .notResumable what := by
  -- an instruction that only moves values keeps the calls, so it goes on
  have data (hi : i.isData = true) (hyield : i ≠ .yield) :
      Ends (execute i) k (fun signal k' => k'.Lands signal) fun e =>
      ∀ what, e ≠ .notResumable what := by
    have hkeeps := (keeps_execute_data lenient_level hi).active A
    exact ⟨fun hrun => (hkeeps.ok hrun).1.lands ((goesOn_execute hi hyield k).ok hrun),
      fun hrun => hkeeps.error hrun⟩
  cases i with
  | yield => exact .pure ⟨A, hpast⟩
  | literal | defineGlobal | getGlobal | setGlobal | setGlobalMember | nil | yes | no | pop
  | getLocal | setLocal | getMember | setLocalMember | equal | greater | less | add | subtract
  | multiply | divide | not | negate | print =>
    exact data rfl nofun
  | jump offset => exact lands_jump A (· + offset)
  | jumpIfFalse offset =>
    refine .bind ((keeps_peek tolerant_level).active A) fun v k₁ hk₁ => ?_
    dsimp only
    split
    · exact lands_jump hk₁.1 (· + offset)
    · exact .pure hk₁.1
  | loop offset =>
    refine .bind ((keeps_frame tolerant_level).active A) fun fr k₁ hk₁ => ?_
    split
    · exact .throw (lenient_level.fault _ rfl)
    · exact .bind (active_goto hk₁.1 _) fun _ _ hk => .pure hk
  | call arguments => exact .bind (active_call A arguments) fun _ _ hk => .pure hk
  | ret => exact lands_leave A
  | stop =>
    exact .bind (.modify (Q := fun _ k' => k' = { k with frames := [], stack := #[] }) rfl)
      fun _ k' h => .pure (by
      subst h
      exact ⟨rfl, rfl⟩)

/-- Reading the next instruction moves the cursor past it. -/
theorem lands_fetch (A : m.Active) :
    Ends fetch m (fun i k => k.Active ∧ k.Past i) fun e => ∀ what, e ≠ .notResumable what := by
  obtain ⟨fr, rest, hframes⟩ := List.exists_cons_of_ne_nil A.frames
  have hfirst : m.frames = ⟨fr.function, fr.cursor, fr.base⟩ :: rest := hframes
  refine .bind (ends_frame hfirst) fun fr' k h => ?_
  obtain ⟨rfl, rfl⟩ := h
  split
  · next i hi =>
    refine .bind (Q := fun _ k' => k'.Active ∧ k'.Past i)
      ⟨fun hrun => ⟨(active_goto A (fr.cursor + 1)).ok hrun, ?_⟩,
        fun hrun => (active_goto A (fr.cursor + 1)).error hrun⟩
      fun _ _ hk => .pure hk
    obtain ⟨-, rfl⟩ := EStateM.Result.ok.inj hrun
    dsimp only
    rw [hframes]
    exact ⟨_, rest, rfl, Nat.succ_pos _, hi⟩
  · exact .throw (lenient_level.fault _ rfl)

/-- One step of a machine in the midst of a program. -/
theorem lands_step (A : m.Active) :
    Ends step m (fun signal k => k.Lands signal) fun e => ∀ what, e ≠ .notResumable what :=
  .bind (lands_fetch A) fun _ _ hk => lands_execute hk.1 hk.2

end Exec

namespace Machine

variable {m : Machine}

/-! ## Runs -/

/-- What a machine is like after a run that has come to an outcome. -/
def Left (m : Machine) : Outcome → Prop
  | .exited .yielded => m.status = .suspended ∧ m.Active ∧ m.Past .yield
  | .exited .finished => m.status = .finished ∧ m.frames = [] ∧ m.stack = #[]
  | .faulted e =>
    (∀ what, e.fault ≠ .notResumable what) ∧ m.status = .faulted e ∧ m.frames = [] ∧ m.stack = #[]
  | .unfinished => m.Active

/-- A run leaves an active machine as its outcome says. -/
theorem Active.interpret (A : m.Active) (n : Nat) (text : String) :
    (interpret n m text).machine.Left (interpret n m text).outcome := by
  induction n generalizing m text with
  | zero => exact A
  | succ n ih =>
    rw [Machine.interpret]
    cases hrun : Exec.step.run m with
    | error e k => exact ⟨(Exec.lands_step A).error hrun, rfl, rfl, rfl⟩
    | ok signal k =>
      have hlands := (Exec.lands_step A).ok hrun
      cases signal with
      | next => exact ih hlands text
      | printed line => exact ih hlands (text ++ line)
      | exit e =>
        cases e with
        | yielded =>
          obtain ⟨⟨hframes, hbottom, hdepth, hstack⟩, hpast⟩ := hlands
          exact ⟨rfl, ⟨hframes, hbottom, hdepth, hstack⟩, hpast⟩
        | finished => exact ⟨rfl, hlands.1, hlands.2⟩

theorem Active.proceed (A : m.Active) (budget : Nat) :
    (m.proceed budget).machine.Left (m.proceed budget).outcome :=
  have A' : ({ m with status := .running } : Machine).Active :=
    ⟨A.frames, A.bottom, A.depth, A.stack⟩
  A'.interpret budget ""

/-- The limits of the values and of the active calls. -/
def Limited (m : Machine) : Prop :=
  m.stack.size ≤ stackLimit ∧ m.frames.length ≤ frameLimit

/-- Whatever the outcome is, the limits hold. -/
theorem Left.limited {outcome : Outcome} (h : m.Left outcome) : m.Limited := by
  cases outcome with
  | exited e =>
    cases e with
    | yielded => exact ⟨h.2.1.stack, h.2.1.depth⟩
    | finished =>
      obtain ⟨-, hframes, hstack⟩ := h
      rw [Limited, hframes, hstack]
      exact ⟨Nat.zero_le _, Nat.zero_le _⟩
  | faulted e =>
    obtain ⟨-, -, hframes, hstack⟩ := h
    rw [Limited, hframes, hstack]
    exact ⟨Nat.zero_le _, Nat.zero_le _⟩
  | unfinished => exact ⟨h.stack, h.depth⟩

/-! ## Calls of a host -/

/-- What a host has done with a machine by calls that came back: the program that it loaded last,
unless the machine was reset since, what the calls of `run` and `resume` came to, and the machine as
it is now. -/
inductive History (host : Host) : Option Program → List Outcome → Machine → Prop where
  | new : History host none [] (new host)
  | load {loaded : Option Program} {outcomes : List Outcome} {m : Machine} (p : Program) :
    History host loaded outcomes m → History host (some p) outcomes (m.load p)
  | run {loaded : Option Program} {outcomes : List Outcome} {m : Machine} (budget : Nat) :
    History host loaded outcomes m → (m.run budget).outcome ≠ .unfinished →
    History host loaded ((m.run budget).outcome :: outcomes) (m.run budget).machine
  | resume {loaded : Option Program} {outcomes : List Outcome} {m : Machine} (budget : Nat) :
    History host loaded outcomes m → (m.resume budget).outcome ≠ .unfinished →
    History host loaded ((m.resume budget).outcome :: outcomes) (m.resume budget).machine
  | reset {loaded : Option Program} {outcomes : List Outcome} {m : Machine} :
    History host loaded outcomes m → History host none outcomes m.reset
  | redirect {loaded : Option Program} {outcomes : List Outcome} {m : Machine} (sink : Sink) :
    History host loaded outcomes m → History host loaded outcomes { m with sink := sink }

/-- A machine is in a state that fits its status. -/
def Fits (m : Machine) (loaded : Option Program) (outcomes : List Outcome) : Prop :=
  match m.status with
  | .empty => m.stack = #[] ∧ m.frames = [] ∧ m.globals = {} ∧ m.heap = .empty
  | .ready => ∃ p, loaded = some p ∧ m.frames = [⟨p.main, 0, 0⟩] ∧ m.stack.size = 1
  | .running => False
  | .suspended => m.Active ∧ m.Past .yield
  | .finished => m.stack = #[] ∧ m.frames = []
  | .faulted e => m.stack = #[] ∧ m.frames = [] ∧ .faulted e ∈ outcomes

variable {loaded : Option Program} {outcomes : List Outcome} {k : Machine} {outcome : Outcome}

/-- What a run leaves behind fits its status. -/
theorem Left.fits (h : m.Left outcome) (hreturns : outcome ≠ .unfinished) :
    m.Fits loaded (outcome :: outcomes) := by
  rw [Fits]
  cases outcome with
  | exited e =>
    cases e with
    | yielded =>
      obtain ⟨hstatus, A, hpast⟩ := h
      rw [hstatus]
      exact ⟨A, hpast⟩
    | finished =>
      obtain ⟨hstatus, hframes, hstack⟩ := h
      rw [hstatus]
      exact ⟨hstack, hframes⟩
  | faulted e =>
    obtain ⟨-, hstatus, hframes, hstack⟩ := h
    rw [hstatus]
    exact ⟨hstack, hframes, List.mem_cons_self⟩
  | unfinished => exact absurd rfl hreturns

/-- A machine that may go on is in the midst of a program, or at its start. -/
theorem Fits.active (h : m.Fits loaded outcomes)
    (hstatus : m.status = .ready ∨ m.status = .suspended) : m.Active := by
  rw [Fits] at h
  rcases hstatus with hstatus | hstatus
  · rw [hstatus] at h
    obtain ⟨p, -, hframes, hsize⟩ := h
    refine ⟨hframes ▸ List.cons_ne_nil _ _, fun fr hfr => ?_, ?_, ?_⟩
    · rw [hframes] at hfr
      cases hfr
      rfl
    · rw [hframes, List.length_singleton]
      decide
    · rw [hsize]
      decide
  · rw [hstatus] at h
    exact h.1

/-- What has come of further calls does not matter. -/
theorem Fits.mono (h : m.Fits loaded outcomes) : m.Fits loaded (outcome :: outcomes) := by
  rw [Fits] at h ⊢
  split at h
  case h_6 => exact ⟨h.1, h.2.1, List.mem_cons_of_mem _ h.2.2⟩
  all_goals exact h

/-- The output has no part in this. -/
theorem Fits.redirect (h : m.Fits loaded outcomes) (sink : Sink) :
    ({ m with sink := sink } : Machine).Fits loaded outcomes := by
  rw [Fits] at h ⊢
  dsimp only
  split at h
  case h_4 => exact ⟨⟨h.1.frames, h.1.bottom, h.1.depth, h.1.stack⟩, h.2⟩
  all_goals exact h

/-- A run that is not refused starts from a machine in the midst of a program. -/
theorem Fits.run (h : m.Fits loaded outcomes) (budget : Nat) :
    m.status = .ready ∧ (m.run budget).machine.Left (m.run budget).outcome ∨
      m.status ≠ .ready ∧ m.run budget = m.refuse := by
  rw [Machine.run]
  split
  · next hstatus => exact .inl ⟨hstatus, (h.active (.inl hstatus)).proceed budget⟩
  · next hstatus => exact .inr ⟨hstatus, rfl⟩

/-- A machine that is ready or suspended is resumed; every other one refuses. -/
theorem Fits.resume (h : m.Fits loaded outcomes) (budget : Nat) :
    (m.status = .ready ∨ m.status = .suspended) ∧
    (m.resume budget).machine.Left (m.resume budget).outcome ∨
      (m.status ≠ .ready ∧ m.status ≠ .suspended) ∧ m.resume budget = m.refuse := by
  rw [Machine.resume]
  split
  · next hstatus => exact .inl ⟨.inl hstatus, (h.active (.inl hstatus)).proceed budget⟩
  · next hstatus => exact .inl ⟨.inr hstatus, (h.active (.inr hstatus)).proceed budget⟩
  · next hready hsuspended => exact .inr ⟨⟨hready, hsuspended⟩, rfl⟩

/-- Every machine that a host can get to is in a state that fits its status. -/
theorem History.fits {host : Host} (h : History host loaded outcomes m) :
    m.Fits loaded outcomes := by
  induction h with
  | new => exact ⟨rfl, rfl, rfl, rfl⟩
  | load p _ _ => exact ⟨p, rfl, rfl, rfl⟩
  | run budget _ hreturns ih =>
    rcases ih.run budget with ⟨-, hleft⟩ | ⟨-, hrefused⟩
    · exact hleft.fits hreturns
    · rw [hrefused]
      exact ih.mono
  | resume budget _ hreturns ih =>
    rcases ih.resume budget with ⟨-, hleft⟩ | ⟨-, hrefused⟩
    · exact hleft.fits hreturns
    · rw [hrefused]
      exact ih.mono
  | reset => exact ⟨rfl, rfl, rfl, rfl⟩
  | redirect sink _ ih => exact ih.redirect sink

/-- What comes of a call of `run` or `resume`: it is refused and changes nothing, or the machine is
left in a state that fits the outcome. -/
def Answers (m : Machine) (r : Run) : Prop :=
  r = m.refuse ∨ r.machine.Left r.outcome

/-- Every such machine keeps the limits. -/
theorem Fits.limited (h : m.Fits loaded outcomes) : m.Limited := by
  cases hstatus : m.status with
  | ready => exact ⟨(h.active (.inl hstatus)).stack, (h.active (.inl hstatus)).depth⟩
  | suspended => exact ⟨(h.active (.inr hstatus)).stack, (h.active (.inr hstatus)).depth⟩
  | running =>
    rw [Fits, hstatus] at h
    exact h.elim
  | empty | finished | faulted =>
    rw [Fits, hstatus] at h
    simp [Limited, h]

theorem Answers.limited {r : Run} (h : m.Answers r) (hm : m.Limited) : r.machine.Limited := by
  rcases h with rfl | h
  · exact hm
  · exact h.limited

/-- A refusal changes nothing, and every other error stays with the machine. -/
theorem Answers.faulted {r : Run} (h : m.Answers r) {e : RuntimeError}
    (he : r.outcome = .faulted e) :
    (∃ what, e.fault = .notResumable what) ∧ r.text = "" ∧ r.machine = m ∨
      (∀ what, e.fault ≠ .notResumable what) ∧ r.machine.status = .faulted e := by
  rcases h with rfl | h
  · obtain rfl := Outcome.faulted.inj he
    exact .inl ⟨⟨m.status.name, rfl⟩, rfl, rfl⟩
  · rw [he] at h
    exact .inr ⟨h.1, h.2.1⟩

end Machine

/-- Whatever a host does with a machine, and whatever the programs are, every call that comes back
leaves the machine in a state that fits its status: it holds nothing, or is at the start of the
program that was loaded, or right after a `yield`, or has neither values nor calls left, and then an
error that it carries is one that was returned.  In the midst of a run, after any number of
instructions, there are at most 256 values and 16 active calls.  A call that is refused, for the
status alone, changes nothing; every other error stays with the machine. -/
theorem machine_lifecycle {host : Host} {loaded : Option Program} {outcomes : List Outcome}
    {m : Machine} (h : Machine.History host loaded outcomes m) :
    m.status ≠ .running ∧
    (m.status = .empty → m.stack = #[] ∧ m.frames = [] ∧ m.globals = {} ∧ m.heap = .empty) ∧
    (m.status = .ready → ∃ p, loaded = some p ∧ m.frames = [⟨p.main, 0, 0⟩] ∧ m.stack.size = 1) ∧
    (m.status = .suspended → ∃ fr rest, m.frames = fr :: rest ∧ 0 < fr.cursor ∧
      fr.function.chunk.instruction? (fr.cursor - 1) = some .yield) ∧
    (m.status = .finished → m.stack = #[] ∧ m.frames = []) ∧
    (∀ e, m.status = .faulted e → m.stack = #[] ∧ m.frames = [] ∧ .faulted e ∈ outcomes) ∧
    ∀ budget,
      (m.status ≠ .ready → m.run budget = m.refuse) ∧
      (m.status ≠ .ready → m.status ≠ .suspended → m.resume budget = m.refuse) ∧
      ∀ r ∈ [m.run budget, m.resume budget],
        r.machine.stack.size ≤ 256 ∧ r.machine.frames.length ≤ 16 ∧
        ∀ e, r.outcome = .faulted e →
          (∃ what, e.fault = .notResumable what) ∧ r.text = "" ∧ r.machine = m ∨
            (∀ what, e.fault ≠ .notResumable what) ∧ r.machine.status = .faulted e := by
  have hm := h.fits
  -- a state that fits its status says what each status means
  have hfits := hm
  rw [Machine.Fits] at hfits
  refine ⟨?_, ?_, ?_, ?_, ?_, ?_, fun budget =>
    ⟨fun hready => ?_, fun hready hsuspended => ?_, fun r hr => ?_⟩⟩
  · intro hstatus
    rwa [hstatus] at hfits
  · intro hstatus
    rwa [hstatus] at hfits
  · intro hstatus
    rwa [hstatus] at hfits
  · intro hstatus
    rw [hstatus] at hfits
    exact hfits.2
  · intro hstatus
    rwa [hstatus] at hfits
  · intro e hstatus
    rwa [hstatus] at hfits
  -- `run` and `resume` refuse unless the status allows them
  · rcases hm.run budget with ⟨hstatus, -⟩ | ⟨-, hrefused⟩
    · exact absurd hstatus hready
    · exact hrefused
  · rcases hm.resume budget with ⟨hstatus, -⟩ | ⟨-, hrefused⟩
    · exact (hstatus.elim hready hsuspended).elim
    · exact hrefused
  -- whatever comes of a call, the limits and the status go with its outcome
  · have hanswers : m.Answers r := by
      simp only [List.mem_cons, List.not_mem_nil, or_false] at hr
      rcases hr with rfl | rfl
      · exact (hm.run budget).elim (fun hrun => .inr hrun.2) fun hrun => .inl hrun.2
      · exact (hm.resume budget).elim (fun hrun => .inr hrun.2) fun hrun => .inl hrun.2
    obtain ⟨hstack, hframes⟩ := hanswers.limited hm.limited
    exact ⟨hstack, hframes, fun e he => hanswers.faulted he⟩

/-- A script that yields and then calls what is no function. -/
def Program.stumbling : Program where
  main :=
    { id := ⟨0, 0⟩
      name := none
      arity := 0
      chunk := ⟨#[⟨.yield, 1⟩, ⟨.nil, 2⟩, ⟨.call 0, 2⟩, ⟨.stop, 2⟩], []⟩ }
  strings := []

/-- The script has been suspended, has failed, and has been refused. -/
theorem machine_lifecycle_stumbling :
    let m₁ := (((Machine.new .empty).load .stumbling).run 9).machine
    let m₂ := (m₁.resume 9).machine
    m₁.status = .suspended ∧ (∃ fr rest, m₁.frames = fr :: rest ∧ fr.cursor = 1) ∧
      m₂.status = .faulted ⟨.notCallable "nil", [⟨none, 2⟩]⟩ ∧ m₂.stack = #[] ∧ m₂.frames = [] ∧
      (m₂.resume 9).machine = m₂ := by
  intro m₁ m₂
  have h₁ : Machine.History .empty (some .stumbling) [.exited .yielded] m₁ :=
    .run 9 (.load _ .new) (by decide +kernel)
  have h₂ : Machine.History .empty (some .stumbling)
      [.faulted ⟨.notCallable "nil", [⟨none, 2⟩]⟩, .exited .yielded] m₂ :=
      .resume 9 h₁ (by decide +kernel)
  have hstatus₁ : m₁.status = .suspended := by decide +kernel
  have hstatus₂ : m₂.status = .faulted ⟨.notCallable "nil", [⟨none, 2⟩]⟩ := by decide +kernel
  obtain ⟨-, -, -, hsuspended, -⟩ := machine_lifecycle h₁
  obtain ⟨fr, rest, hframes, -, -⟩ := hsuspended hstatus₁
  have hcursor : m₁.frames.map Frame.cursor = [1] := by decide +kernel
  obtain ⟨-, -, -, -, -, hfaulted, hcalls⟩ := machine_lifecycle h₂
  obtain ⟨hstack, hnone, -⟩ := hfaulted _ hstatus₂
  have hrefused := (hcalls 9).2.1 (by rw [hstatus₂]; nofun) (by rw [hstatus₂]; nofun)
  refine ⟨hstatus₁, ⟨fr, rest, hframes, ?_⟩, hstatus₂, hstack, hnone, ?_⟩
  · rw [hframes] at hcursor
    exact (List.cons.inj hcursor).1
  · rw [hrefused]
    rfl

end EntityScript
