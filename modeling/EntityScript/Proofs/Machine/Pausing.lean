/-
# Pauses cannot be seen

A script that pauses is resumed until it does not yield any more (`Machine.Completes`).  Without its
yields it runs in one go.  The two runs take the same steps, but for the pauses
(`Machine.Twins.steps`), and between its parts a run is left as it is; so one ends if and only if
the other does, and then they have printed the same, end in the same way, with the same trace if
that is an error, and leave globals that are displayed in the same way (`yielding_invisible`).
-/
import EntityScript.Proofs.Machine.Names
import EntityScript.Proofs.Machine.Surroundings
import EntityScript.Proofs.Machine.Twins
import EntityScript.Proofs.Machine.Watch
import EntityScript.Proofs.Script.Yields
import EntityScript.Proofs.Tree.Family
import Mathlib.Logic.Equiv.Basic

namespace EntityScript

open Correspondence

namespace Machine

/-! ## Runs to the end -/

/-- What a machine comes to when it is resumed until it does not yield any more: how the last part
of its run ends, all that is printed, and the machine afterwards.  Each part has the budget that it
needs. -/
inductive Completes : Machine → Outcome → String → Machine → Prop where
  | ends {m k : Machine} {budget : Nat} {outcome : Outcome} {text : String} :
    m.resume budget = ⟨outcome, text, k⟩ → outcome ≠ .unfinished → outcome ≠ .exited .yielded →
    Completes m outcome text k
  | pauses {m m₁ k : Machine} {budget : Nat} {outcome : Outcome} {text rest : String} :
    m.resume budget = ⟨.exited .yielded, text, m₁⟩ → Completes m₁ outcome rest k →
    Completes m outcome (text ++ rest) k

/-- The globals of a machine, as they are displayed. -/
def displayed (m : Machine) (name : String) : Option String :=
  (m.global? name).map m.display

/-- The stack, the active calls with their places in the code, the globals and the objects of a
machine. -/
def contents (m : Machine) : Array Value × List Frame × Std.TreeMap String Value × Heap :=
  (m.stack, m.frames, m.globals, m.heap)

variable {renamed : FunctionId → FunctionId} {m m' k : Machine} {outcome : Outcome}
  {text rest : String}

/-- What has been printed before comes first. -/
theorem interpret_append (n : Nat) (m : Machine) (s t : String) :
    interpret n m (s ++ t) =
    ⟨(interpret n m t).outcome, s ++ (interpret n m t).text, (interpret n m t).machine⟩ := by
  induction n generalizing m t with
  | zero => rfl
  | succ n ih =>
    rw [interpret, interpret]
    cases Exec.step.run m with
    | error e m' => rfl
    | ok signal m' =>
      cases signal with
      | next => exact ih m' t
      | printed line =>
        dsimp only
        rw [String.append_assoc]
        exact ih m' (t ++ line)
      | exit e => rfl

/-- A run that has come to its end has printed its text after what was printed before. -/
theorem interpret_after {n : Nat} (h : interpret n m "" = ⟨outcome, text, k⟩) (before : String) :
    interpret n m before = ⟨outcome, before ++ text, k⟩ := by
  have happend := interpret_append n m before ""
  rwa [String.append_empty, h] at happend

theorem exited_yielded_isOpen (m : Machine) : (m.exited .yielded).IsOpen :=
  .inr rfl

/-- A machine that is resumed after a pause goes on as it was left. -/
theorem resume_exited (m : Machine) (budget : Nat) :
    (m.exited .yielded).resume budget = interpret budget { m with status := .running } "" :=
  m.exited_yielded_isOpen.resume budget

/-- Machines that are resumed in the same way complete in the same way. -/
theorem Completes.congr (hresume : ∀ budget, m.resume budget = m'.resume budget)
    (h : m'.Completes outcome text k) :
    m.Completes outcome text k := by
  cases h with
  | ends hrun hend hyield => exact .ends ((hresume _).trans hrun) hend hyield
  | pauses hrun hrest => exact .pauses ((hresume _).trans hrun) hrest

/-- A machine that is running and paused for a moment goes on as it would have. -/
theorem resume_of_running (hm : m.status = .running) (budget : Nat) :
    (m.exited .yielded).resume budget = interpret budget m "" := by
  rw [resume_exited, ← hm]

/-- One more step before a run to the end. -/
theorem Completes.before {line : String} (hm : m.status = .running) (hm' : m'.status = .running)
    (hstep : ∀ budget, interpret (budget + 1) m "" = interpret budget m' line)
    (h : (m'.exited .yielded).Completes outcome text k) :
    (m.exited .yielded).Completes outcome (line ++ text) k := by
  have hresume {budget : Nat} {r : Run} (hrun : (m'.exited .yielded).resume budget = r) :
      (m.exited .yielded).resume (budget + 1) = ⟨r.outcome, line ++ r.text, r.machine⟩ := by
    rw [resume_of_running hm'] at hrun
    rw [resume_of_running hm, hstep, interpret_after hrun]
  cases h with
  | ends hrun hend hyield => exact .ends (hresume hrun) hend hyield
  | pauses hrun hrest =>
    rw [← String.append_assoc]
    exact .pauses (hresume hrun) hrest

/-! ## Twins to the end -/

/-- What a machine is said to be doing does not matter. -/
theorem Twins.of_contents (h : m.Twins renamed m') {j j' : Machine} (hj : j.contents = m.contents)
    (hsink : j.sink = m.sink) (hj' : j'.contents = m'.contents) (hsink' : j'.sink = m'.sink) :
    j.Twins renamed j' := by
  simp only [contents, Prod.mk.injEq] at hj hj'
  obtain ⟨hstack, hframes, hglobals, hheap⟩ := hj
  obtain ⟨hstack', hframes', hglobals', hheap'⟩ := hj'
  exact h.congr hstack hframes hglobals hheap hsink hstack' hframes' hglobals' hheap' hsink'

/-- Globals that stand for each other are displayed in the same way. -/
theorem displayed_eq {C : Correspondence} (L : C.Lawful) (hrelated : C.heap m.heap m'.heap)
    (hglobals : ∀ x : String, Option.Rel (C.value m.heap m'.heap) m.globals[x]? m'.globals[x]?) :
    m'.displayed = m.displayed := by
  funext name
  have hglobal := hglobals name
  rw [displayed, displayed, global?, global?]
  generalize m.globals[name]? = v at hglobal ⊢
  generalize m'.globals[name]? = v' at hglobal ⊢
  cases hglobal with
  | none => rfl
  | some hv => exact congrArg some ((L.stands hrelated hv).display_eq L)

theorem Twins.displayed_eq (hrenamed : renamed.Injective) (h : m.Twins renamed m') :
    m'.displayed = m.displayed := by
  obtain ⟨fs, fs', -, h⟩ := h
  exact Machine.displayed_eq (lawful_pauseless hrenamed) h.related h.globals

theorem alike_displayed_eq (hrenamed : renamed.Injective) (h : (pauseless renamed).Alike m m') :
    m'.displayed = m.displayed :=
  Machine.displayed_eq (lawful_pauseless hrenamed) h.related h.globals

theorem alike_trace_eq (h : (pauseless renamed).Alike m m') : m'.trace = m.trace :=
  List.forall₂_eq_eq_eq ▸ h.trace.flip

/-- What a part of a run is like in one go: the run in one go goes on where the part has paused, or
ends as it does. -/
inductive Rejoins (renamed : FunctionId → FunctionId) (m' : Machine) (before : String)
    (k : Machine) :
    Outcome → String → Prop where
  | pauses {c : Nat} {k' : Machine} {text : String} : k.Twins renamed k' →
    (∀ b, interpret (c + b) m' before = interpret b k' text) →
    Rejoins renamed m' before k (.exited .yielded) text
  | ends {c : Nat} {k' : Machine} {outcome : Outcome} {text : String} : outcome ≠ .exited .yielded →
    interpret c m' before = ⟨outcome, text, k'⟩ → k'.displayed = k.displayed →
    Rejoins renamed m' before k outcome text

/-- One more step before. -/
theorem Rejoins.step {before before' : String} {m₁ : Machine}
    (h : Rejoins renamed m₁ before' k outcome text)
    (hstep : ∀ b, interpret (b + 1) m' before = interpret b m₁ before') :
    Rejoins renamed m' before k outcome text := by
  cases h with
  | @pauses c k' _ hk hgo =>
    refine .pauses (c := c + 1) hk fun b => ?_
    rw [Nat.add_right_comm, hstep, hgo]
  | ends hyield hrun hdisplayed => exact .ends hyield ((hstep _).trans hrun) hdisplayed

/-- A run that comes to an end on one machine comes to it on its twin, as soon as that has no pauses
in the way. -/
theorem Twins.follow (hrenamed : renamed.Injective) (h : m.Twins renamed m') {n : Nat}
    {before : String} (hrun : interpret n m before = ⟨outcome, text, k⟩)
    (hend : outcome ≠ .unfinished) :
    Rejoins renamed m' before k outcome text := by
  induction n generalizing m m' before with
  | zero => exact absurd (Run.mk.inj hrun).1.symm hend
  | succ n ih =>
    cases h.steps hrenamed with
    | pause hstep h₁ _ =>
      rw [interpret_exit n before hstep] at hrun
      obtain ⟨rfl, rfl, rfl⟩ := Run.mk.inj hrun
      exact .pauses (c := 0) (h₁.of_contents rfl rfl rfl rfl) fun b => by rw [Nat.zero_add]
    | next hstep hstep' h₁ =>
      rw [interpret_next n before hstep] at hrun
      exact (ih h₁ hrun).step fun b => interpret_next b before hstep'
    | printed hstep hstep' h₁ =>
      rw [interpret_printed n before hstep] at hrun
      exact (ih h₁ hrun).step fun b => interpret_printed b before hstep'
    | finished hstep hstep' h₁ =>
      rw [interpret_exit n before hstep] at hrun
      obtain ⟨rfl, rfl, rfl⟩ := Run.mk.inj hrun
      exact .ends (fun heq => by cases heq) (interpret_exit 0 before hstep')
        (h₁.displayed_eq hrenamed :)
    | failed hstep hstep' h₁ =>
      rw [interpret_failed n before hstep] at hrun
      obtain ⟨rfl, rfl, rfl⟩ := Run.mk.inj hrun
      have hrun' := interpret_failed 0 before hstep'
      rw [alike_trace_eq h₁] at hrun'
      exact .ends (fun heq => by cases heq) hrun' (alike_displayed_eq hrenamed h₁ :)

/-- A machine that has yielded is left as its last instruction, which is a pause, left it. -/
theorem exists_of_yielded {n : Nat} {before : String}
    (hrun : interpret n m before = ⟨.exited .yielded, text, k⟩) :
    ∃ i j, Exec.step.run i = .ok (.exit .yielded) j ∧ k = j.exited .yielded := by
  induction n generalizing m before with
  | zero => cases (Run.mk.inj hrun).1
  | succ n ih =>
    rw [interpret] at hrun
    cases hstep : Exec.step.run m with
    | error e j =>
      rw [hstep] at hrun
      cases (Run.mk.inj hrun).1
    | ok signal j =>
      rw [hstep] at hrun
      cases signal with
      | next | printed => exact ih hrun
      | exit e =>
        obtain ⟨he, -, rfl⟩ := Run.mk.inj hrun
        obtain rfl := Outcome.exited.inj he
        exact ⟨m, j, hstep, rfl⟩

/-- A call that has yielded has come to a step that yields. -/
theorem exists_of_resume_yielded {budget : Nat} (h : (m.resume budget).outcome = .exited .yielded) :
    ∃ i j, Exec.step.run i = .ok (.exit .yielded) j ∧
    (m.resume budget).machine = j.exited .yielded := by
  have hproceed (h : (m.proceed budget).outcome = .exited .yielded) :
      ∃ i j, Exec.step.run i = .ok (.exit .yielded) j ∧
      (m.proceed budget).machine = j.exited .yielded :=
    exists_of_yielded (n := budget) (by rw [← h]; rfl)
  rw [resume] at h ⊢
  split at h
  · exact hproceed h
  · exact hproceed h
  · cases h

/-- A script that is resumed until it does not yield any more comes to what it comes to in one
go. -/
theorem Completes.straight (hrenamed : renamed.Injective) (h : m.Completes outcome text k)
    (hopen : m.IsOpen) (htwins : m.Twins renamed m') (before : String) :
    outcome ≠ .unfinished ∧ ∃ c k', interpret c m' before = ⟨outcome, before ++ text, k'⟩ ∧
      k'.displayed = k.displayed := by
  induction h generalizing m' before with
  | @ends m k budget outcome text hrun hend hyield =>
    rw [hopen.resume, proceed] at hrun
    have hstart : Machine.Twins renamed { m with status := .running } m' :=
      htwins.of_contents rfl rfl rfl rfl
    cases hstart.follow hrenamed (interpret_after hrun before) hend with
    | pauses => exact absurd rfl hyield
    | ends _ hrun' hdisplayed => exact ⟨hend, _, _, hrun', hdisplayed⟩
  | @pauses m m₁ k budget outcome text rest hrun hrest ih =>
    rw [hopen.resume, proceed] at hrun
    have hstart : Machine.Twins renamed { m with status := .running } m' :=
      htwins.of_contents rfl rfl rfl rfl
    obtain ⟨i, j, -, hj⟩ := exists_of_yielded hrun
    cases hstart.follow hrenamed (interpret_after hrun before) (fun heq => by cases heq) with
    | ends hyield => exact absurd rfl hyield
    | pauses h₁ hgo =>
      obtain ⟨hend, c, k', hrun', hdisplayed⟩ :=
        ih (hj ▸ j.exited_yielded_isOpen) h₁ (before ++ text)
      rw [String.append_assoc] at hrun'
      exact ⟨hend, _, k', (hgo c).trans hrun', hdisplayed⟩

/-- What a script comes to in one go it comes to when it is resumed until it does not yield any
more. -/
theorem Twins.completes (hrenamed : renamed.Injective) (h : m.Twins renamed m')
    (hm : m.status = .running) {n : Nat} {before all : String} {k' : Machine}
    (hrun : interpret n m' before = ⟨outcome, all, k'⟩)
    (hend : outcome ≠ .unfinished) :
    ∃ text k, all = before ++ text ∧ (m.exited .yielded).Completes outcome text k ∧
    k'.displayed = k.displayed := by
  induction n generalizing m m' before with
  | zero => exact absurd (Run.mk.inj hrun).1.symm hend
  | succ n ih =>
    -- the pauses before the next common step; each is a part of the run with a single instruction
    induction hleft : m.left using Nat.strong_induction_on generalizing m with
    | h left ihleft =>
      cases h.steps hrenamed with
      | pause hstep h₁ hlt =>
        have hm₁ := (Exec.contained_step.ok hstep).2.trans hm
        obtain ⟨text, k, hall, hrest, hdisplayed⟩ := ihleft _ (hleft ▸ hlt) h₁ hm₁ rfl
        have hpause := Completes.pauses ((resume_of_running hm 1).trans (interpret_exit 0 "" hstep))
          hrest
        rw [String.empty_append] at hpause
        exact ⟨text, k, hall, hpause, hdisplayed⟩
      | next hstep hstep' h₁ =>
        rw [interpret_next n before hstep'] at hrun
        have hm₁ := (Exec.contained_step.ok hstep).2.trans hm
        obtain ⟨text, k, hall, hrest, hdisplayed⟩ := ih h₁ hm₁ hrun
        have hmore := hrest.before hm hm₁ fun b => interpret_next b "" hstep
        rw [String.empty_append] at hmore
        exact ⟨text, k, hall, hmore, hdisplayed⟩
      | @printed line _ _ hstep hstep' h₁ =>
        rw [interpret_printed n before hstep'] at hrun
        have hm₁ := (Exec.contained_step.ok hstep).2.trans hm
        obtain ⟨text, k, hall, hrest, hdisplayed⟩ := ih h₁ hm₁ hrun
        have hmore := hrest.before hm hm₁ fun b => interpret_printed b "" hstep
        rw [String.empty_append] at hmore
        exact ⟨line ++ text, k, by rw [hall, String.append_assoc], hmore, hdisplayed⟩
      | finished hstep hstep' h₁ =>
        rw [interpret_exit n before hstep'] at hrun
        obtain ⟨rfl, rfl, rfl⟩ := Run.mk.inj hrun
        refine ⟨"", _, String.append_empty.symm,
          .ends ((resume_of_running hm 1).trans (interpret_exit 0 "" hstep)) hend ?_, ?_⟩
        · exact fun heq => by cases heq
        · exact (h₁.displayed_eq hrenamed :)
      | failed hstep hstep' h₁ =>
        rw [interpret_failed n before hstep', alike_trace_eq h₁] at hrun
        obtain ⟨rfl, rfl, rfl⟩ := Run.mk.inj hrun
        refine ⟨"", _, String.append_empty.symm,
          .ends ((resume_of_running hm 1).trans (interpret_failed 0 "" hstep)) hend ?_, ?_⟩
        · exact fun heq => by cases heq
        · exact (alike_displayed_eq hrenamed h₁ :)

/-! ## Loading -/

/-- Making a global of twin objects leaves twin heaps. -/
theorem twins_bind (hrenamed : renamed.Injective) (name : String) {object object' : Object}
    (h : Heap.Twins renamed m.heap m'.heap) (hobject : Object.Twin renamed object object') :
    Heap.Twins renamed (m.bind name object).heap (m'.bind name object').heap := by
  cases hobject with
  | string text => exact (h.intern text).2
  | native n => exact (h.native n).2
  | function hf => exact (h.function hrenamed hf).2

/-- Binding the functions of a host that are their own twins. -/
theorem twins_bindHost (hrenamed : renamed.Injective) (h : Heap.Twins renamed m.heap m.heap)
    (hscripts : ∀ (name : String) (f : Function),
      m.host.scripts[name]? = some f → Function.Twin renamed f f) :
    Heap.Twins renamed m.bindHost.heap m.bindHost.heap := by
  obtain ⟨k, hk⟩ : ∃ k, k = m.host.natives.foldl (fun m name n => m.bind name (.native n)) m :=
    ⟨_, rfl⟩
  have hnatives : k.host = m.host ∧ Heap.Twins renamed k.heap k.heap := by
    rw [hk]
    exact foldl_table_rel (fun (k : Machine) (_ : Unit) => k.host = m.host ∧
      Heap.Twins renamed k.heap k.heap) _ (g := fun _ _ _ => ()) (y := ()) ⟨rfl, h⟩
      fun name n _ _ _ hk =>
        ⟨hk.1, twins_bind hrenamed name hk.2 (.native n)⟩
  have hbound : m.bindHost = k.host.scripts.foldl
    (fun m name f => m.bind name (.function f)) k := by
    rw [hk]
    rfl
  rw [hbound, hnatives.1]
  exact foldl_table_rel (fun (k : Machine) (_ : Unit) => Heap.Twins renamed k.heap k.heap) _
    (g := fun _ _ _ => ()) (y := ()) hnatives.2 fun name f hf _ _ hk =>
      twins_bind hrenamed name hk (.function (hscripts name f hf))

/-- Two programs, the second without the pauses of the first, make machines that are twins. -/
theorem twins_load (hrenamed : renamed.Injective) {p p' : Program}
    (hscripts : ∀ (name : String) (f : Function),
      m.host.scripts[name]? = some f → Function.Twin renamed f f)
    (hmain : Function.Twin renamed p.main p'.main) (hstrings : p'.strings = p.strings) :
    (m.load p).Twins renamed (m.load p') := by
  obtain ⟨k, hk⟩ : ∃ k, k = p.strings.foldl intern m.reset := ⟨_, rfl⟩
  have htexts : k.host = m.host ∧ Heap.Twins renamed k.heap k.heap := by
    rw [hk]
    exact List.foldlRecOn (motive := fun k : Machine => k.host = m.host ∧
      Heap.Twins renamed k.heap k.heap) p.strings intern (b := m.reset) ⟨rfl, .empty⟩
      fun k hk text _ => ⟨hk.1, (hk.2.intern text).2⟩
  obtain ⟨href, hheap⟩ := (twins_bindHost hrenamed htexts.2 (htexts.1 ▸ hscripts)).function
    hrenamed hmain
  have hload (p : Program) (hp : k = p.strings.foldl intern m.reset) : m.load p = { k.bindHost with
      heap := (k.bindHost.heap.function p.main).2
      stack := #[.object (k.bindHost.heap.function p.main).1]
      frames := [⟨p.main, 0, 0⟩]
      status := .ready } := by rw [hp]; rfl
  have hcalls : (pauseless renamed).Calls [⟨p.main, 0, 0⟩] [⟨p'.main, 0, 0⟩] :=
    .cons ⟨⟨hmain, (packed_zero _).symm⟩, rfl⟩ .nil
  rw [hload p hk, hload p' (by rw [hk, hstrings])]
  have hsame (v : Option Value) : Option.Rel (fun v v' => v' = v) v v := by
    cases v with
    | none => exact .none
    | some => exact .some rfl
  refine ⟨_, _, hcalls, rfl, rfl, hheap, ⟨rfl, fun i _ => ?_⟩, fun _ => hsame _, rfl, rfl, rfl⟩
  rw [href]
  exact hsame _

end Machine

/-! ## Sources -/

/-- No function of a host, nor any function inside one, comes from the given compilation. -/
def Host.Predates (host : Host) (unit : Nat) : Prop :=
  ∀ (name : String) (f : Function), host.scripts[name]? = some f → ∀ g ∈ f.family, g.id.unit ≠ unit

/-- No function of a host, nor any function inside one, pauses. -/
def Host.NeverPauses (host : Host) : Prop :=
  ∀ (name : String) (f : Function), host.scripts[name]? = some f →
    ∀ g ∈ f.family, ∀ p ∈ g.chunk.code.toList,
    p.instruction ≠ .yield

/-- A function of one compilation in the place of the function with this number of the other. -/
def FunctionId.moved (unit unit' : Nat) (id : FunctionId) : FunctionId :=
  ⟨Equiv.swap unit unit' id.unit, id.serial⟩

/-- Functions of one compilation get different numbers in another one. -/
theorem FunctionId.moved_injective (unit unit' : Nat) :
    (FunctionId.moved unit unit').Injective := by
  intro a b hab
  obtain ⟨hunit, hserial⟩ := FunctionId.mk.inj hab
  have hsame := (Equiv.swap unit unit').injective hunit
  cases a
  cases b
  exact congrArg₂ FunctionId.mk hsame hserial

/-- Yielding is invisible.  Let a source compile against a host with functions that never pause, and
let another source have the same tokens, but for an empty block on the same lines in place of each
`yield` statement.  Then this source compiles, too.  The first program, loaded and resumed until it
does not yield any more, comes to an end if and only if the second one comes to an end in a single
run, and both print the same, have the same outcome, which includes the trace of an error, and leave
globals that are displayed in the same way.  A machine that has yielded is resumed with the stack,
the calls, the globals and the objects that its last instruction, which is a pause, has left. -/
theorem yielding_invisible {host : Host} (hpauses : host.NeverPauses) {unit unit' : Nat}
    (hunit : host.Predates unit) (hunit' : host.Predates unit') {source source' : String}
    {p : Program} (hp : compile unit host.names source = .ok p)
    (hsource : tokens source' = Token.withoutYields (tokens source)) :
    ∃ p', compile unit' host.names source' = .ok p' ∧ ∀ m : Machine, m.host = host →
      (∀ outcome text shown,
        (∃ k, (m.load p).Completes outcome text k ∧ k.displayed = shown) ↔
          outcome ≠ .unfinished ∧ ∃ budget k, (m.load p').run budget = ⟨outcome, text, k⟩ ∧
          k.displayed = shown) ∧
      ∀ (k : Machine) (budget : Nat), (k.resume budget).outcome = .exited .yielded →
        ∃ i j, Exec.step.run i = .ok (.exit .yielded) j ∧
        (k.resume budget).machine.contents = j.contents ∧
          ∀ more, (k.resume budget).machine.resume more = Machine.interpret more
          { j with status := .running } "" := by
  have hrenamed := FunctionId.moved_injective unit unit'
  have hmoved (n : Nat) : FunctionId.moved unit unit' ⟨unit, n⟩ = ⟨unit', n⟩ := by
    rw [FunctionId.moved, Equiv.swap_apply_left]
  obtain ⟨p', hp', hstrings, hmain⟩ := compile_withoutYields hmoved hp hsource
  -- the functions of the host are their own twins
  have hscripts (name : String) (f : Function) (hf : host.scripts[name]? = some f) :
      Function.Twin (.moved unit unit') f f := by
    refine f.twin_self fun g hg => ⟨?_, hpauses name f hf g hg⟩
    rw [FunctionId.moved, Equiv.swap_apply_of_ne_of_ne (hunit name f hf g hg)
      (hunit' name f hf g hg)]
  refine ⟨p', hp', fun m hm => ⟨fun outcome text shown => ?_, fun k budget hyield => ?_⟩⟩
  · have htwins : (m.load p).Twins (.moved unit unit') (m.load p') :=
      Machine.twins_load hrenamed (hm ▸ hscripts) hmain hstrings
    have hrun (budget : Nat) : (m.load p').run budget =
        Machine.interpret budget { m.load p' with status := .running } "" := rfl
    have hresume (budget : Nat) : (m.load p).resume budget =
        Machine.interpret budget { m.load p with status := .running } "" := rfl
    constructor
    · rintro ⟨k, hcompletes, rfl⟩
      have hstart : Machine.Twins (.moved unit unit') (m.load p)
        { m.load p' with status := .running } :=
        htwins.of_contents rfl rfl rfl rfl
      obtain ⟨hend, budget, k', hrun', hdisplayed⟩ :=
        hcompletes.straight hrenamed (.inl rfl) hstart ""
      rw [String.empty_append] at hrun'
      exact ⟨hend, budget, k', (hrun budget).trans hrun', hdisplayed⟩
    · rintro ⟨hend, budget, k', hrun', rfl⟩
      have hstart : Machine.Twins (.moved unit unit') { m.load p with status := .running }
        { m.load p' with status := .running } := htwins.of_contents rfl rfl rfl rfl
      obtain ⟨_, k, rfl, hcompletes, hdisplayed⟩ :=
        hstart.completes hrenamed rfl ((hrun budget).symm.trans hrun') hend
      rw [String.empty_append]
      exact ⟨k, hcompletes.congr fun budget =>
        (hresume budget).trans (Machine.resume_of_running rfl budget).symm,
        hdisplayed.symm⟩
  · obtain ⟨i, j, hstep, hj⟩ := Machine.exists_of_resume_yielded hyield
    rw [hj]
    exact ⟨i, j, hstep, rfl, j.resume_exited⟩

/-- A script that yields in the midst of a call, and that calls a function of its host. -/
def waitingScript : String :=
  "fun wait(n) \x7b yield; return n; \x7d let sum = wait(twice(2)); print sum;"

/-- The same script with an empty block in place of its `yield`. -/
def waitingStraight : String :=
  "fun wait(n) \x7b \x7b\x7d return n; \x7d let sum = wait(twice(2)); print sum;"

/-- How a single run of a script ends, what it prints, and the sum that it leaves. -/
def waitingRun (p : Program) : Outcome × String × Option String :=
  let r := ((Machine.new .adding).load p).run 100
  (r.outcome, r.text, r.machine.displayed "sum")

/-- The script that is resumed in the midst of the call comes to what it comes to in one go. -/
theorem yielding_invisible_waiting :
    ∃ p, compile 0 Host.adding.names waitingScript = .ok p ∧
      tokens waitingStraight = Token.withoutYields (tokens waitingScript) ∧
      ∃ k, ((Machine.new .adding).load p).Completes (.exited .finished) "4\n" k ∧
        k.displayed "sum" = some "4" := by
  have hscripts : ∀ e ∈ Host.adding.scripts.toList, ∀ g ∈ e.2.family, g.id.unit = 1 ∧
      ∀ p ∈ g.chunk.code.toList, p.instruction ≠ .yield := by decide +kernel
  have hscript (name : String) (f : Function) (hf : Host.adding.scripts[name]? = some f) :=
    hscripts (name, f) (Std.TreeMap.mem_toList_iff_getElem?_eq_some.mpr hf)
  have hpauses : Host.adding.NeverPauses := fun name f hf g hg => (hscript name f hf g hg).2
  have hunit (unit : Nat) (hne : unit ≠ 1) : Host.adding.Predates unit := fun name f hf g hg heq =>
    hne (heq.symm.trans (hscript name f hf g hg).1)
  have hsource : tokens waitingStraight = Token.withoutYields (tokens waitingScript) := by
    decide +kernel
  have hok : (compile 0 Host.adding.names waitingScript).isOk = true := by decide +kernel
  have hstraight : (compile 2 Host.adding.names waitingStraight).toOption.map waitingRun =
      some (.exited .finished, "4\n", some "4") := by decide +kernel
  obtain ⟨p, hp⟩ := exists_of_isOk hok
  obtain ⟨p', hp', hruns⟩ :=
    yielding_invisible hpauses (hunit 0 (by decide)) (hunit 2 (by decide)) hp hsource
  rw [hp'] at hstraight
  obtain ⟨houtcome, htext, hsum⟩ := by
    simpa only [waitingRun, Prod.mk.injEq] using Option.some.inj hstraight
  have hhost : (Machine.new .adding).host = .adding := by rw [Machine.new]
  obtain ⟨hcompletes, -⟩ := hruns (Machine.new .adding) hhost
  obtain ⟨r, hr⟩ : ∃ r, r = ((Machine.new .adding).load p').run 100 := ⟨_, rfl⟩
  rw [← hr] at houtcome htext hsum
  have hends : r.outcome ≠ .unfinished := by
    rw [houtcome]
    decide
  obtain ⟨k, hk, hshown⟩ :=
    (hcompletes r.outcome r.text r.machine.displayed).mpr ⟨hends, 100, r.machine, hr.symm, rfl⟩
  rw [houtcome, htext] at hk
  exact ⟨p, hp, hsource, k, hk, (congrFun hshown "sum").trans hsum⟩

end EntityScript
