/-
# Machines that can be reached

What a host can do with a machine: load programs of a library, run, resume and reset it, and
redirect its output, in any order.  A call of `run` or `resume` may be cut off after any number of
instructions, so the machines in the midst of a run are among those that can be reached.

All of them are sound (`Machine.Sound`), and if the natives of the host are tame, no object is ever
missed.
-/
import EntityScript.Proofs.Machine.Progress

namespace EntityScript

namespace Machine

variable {lib : Library} {m : Machine}

/-! ## Running -/

/-- One instruction of an aligned machine. -/
theorem Aligned.step (A : m.Aligned lib) (hrun : m.frames ≠ [])
    (hlimit : m.stack.size ≤ stackLimit) :
    (∃ sig m', Exec.step.run m = .ok sig m' ∧ m'.stack.size ≤ stackLimit ∧
        Proceeds lib m (.ok (sig, m'))) ∨
      ∃ e m', Exec.step.run m = .error e m' ∧ Proceeds lib m (.error e) ∧ m'.globals = m.globals ∧
        m.heap.Extends m'.heap ∧ m'.host = m.host := by
  obtain ⟨⟨f, i, base⟩, rest, hframes⟩ := List.exists_cons_of_ne_nil hrun
  obtain ⟨s, hs⟩ : ∃ s : List Value, m.stack = s.toArray := ⟨m.stack.toList, by simp⟩
  have hm : m = m.on (⟨f, i, base⟩ :: rest) s := by
    rw [on, ← hframes, ← hs]
  rw [hm] at A ⊢
  rw [hs, List.size_toArray] at hlimit
  have hcursor : i < f.chunk.code.size := A.running.2.1
  have hi : f.chunk.instruction? i = some f.chunk.code[i].instruction := by
    rw [Chunk.instruction?, Array.getElem?_eq_getElem hcursor]
    rfl
  obtain ⟨r, hmeets, hproceeds⟩ := comes_execute A hlimit hi
  rcases Exec.meets_step hi hmeets with ⟨sig, m', rfl, hstep, hwithin⟩ | ⟨e, m', he, hstep, hspares⟩
  · refine .inl ⟨sig, m', hstep, ?_, hproceeds⟩
    simp only [Within, on_stack, List.size_toArray] at hwithin
    omega
  · refine .inr ⟨e, m', hstep, ?_, hspares.globals, hspares.heap, hspares.host⟩
    rcases he with rfl | rfl
    · exact .inl rfl
    · exact hproceeds

/-- A machine that a host can get.  The calls of a machine that is to go on are aligned. -/
structure Sound (lib : Library) (m : Machine) : Prop where
  limit : m.stack.size ≤ stackLimit
  idle : m.frames = [] → m.stack.size = 0
  aligned : m.frames ≠ [] → m.Aligned lib
  started : m.status = .ready ∨ m.status = .suspended → m.frames ≠ []

/-- What a call of `run` or `resume` may come to. -/
structure Leads (lib : Library) (m : Machine) (r : Run) : Prop where
  sound : r.machine.Sound lib
  host : r.machine.host = m.host
  valid : m.host.Tame → m.Valid → r.machine.Valid
  fault : m.host.Tame → m.Valid → ∀ e, r.outcome = .faulted e → e.fault.isInternal = false

/-- What comes of a machine comes of every machine before it that was no less sound. -/
theorem Leads.after {m' : Machine} {r : Run} (hhost : m'.host = m.host)
    (hvalid : m.host.Tame → m.Valid → m'.Valid) (h : Leads lib m' r) : Leads lib m r := by
  refine ⟨h.sound, h.host.trans hhost, ?_, ?_⟩
  · intro htame hv
    exact h.valid (hhost ▸ htame) (hvalid htame hv)
  · intro htame hv
    exact h.fault (hhost ▸ htame) (hvalid htame hv)

/-- An aligned machine stays sound however long it runs. -/
theorem Aligned.interpret (A : m.Aligned lib) (hrun : m.frames ≠ [])
    (hlimit : m.stack.size ≤ stackLimit) (n : Nat) (text : String) :
    Leads lib m (m.interpret n text) := by
  induction n generalizing m text with
  | zero =>
    refine ⟨⟨hlimit, fun hnil => absurd hnil hrun, fun _ => A, fun _ => hrun⟩, rfl,
      fun _ hv => hv, ?_⟩
    intro _ _ e he
    cases he
  | succ n ih =>
    rcases A.step hrun hlimit with ⟨sig, m', hstep, hlimit', A', hvalid, hhost, hgoes⟩ |
      ⟨e, m', hstep, hfault, hglobals, hheap, hhost⟩
    · cases sig with
      | next =>
        have hrun' : m'.frames ≠ [] := hgoes.resolve_left (by simp)
        rw [Machine.interpret, hstep]
        exact (ih A' hrun' hlimit' text).after hhost hvalid
      | printed line =>
        have hrun' : m'.frames ≠ [] := hgoes.resolve_left (by simp)
        rw [Machine.interpret, hstep]
        exact (ih A' hrun' hlimit' (text ++ line)).after hhost hvalid
      | exit x =>
        rw [Machine.interpret, hstep]
        -- a machine without calls has nothing on its stack
        have hidle : m'.frames = [] → m'.stack.size = 0 := by
          intro hnil
          rcases A'.windows with ⟨-, hzero⟩ | ⟨hne, -⟩
          · exact hzero
          · exact absurd hnil hne
        cases x with
        | yielded =>
          have hrun' : m'.frames ≠ [] := hgoes.resolve_left (by simp)
          refine ⟨⟨hlimit', hidle, fun _ => ⟨A'.heap, A'.windows, A'.own⟩, fun _ => hrun'⟩, hhost,
            ?_,
            fun _ _ e he => by cases he⟩
          intro htame hv
          exact ⟨(hvalid htame hv).stack, (hvalid htame hv).globals⟩
        | finished =>
          refine ⟨⟨hlimit', hidle, fun _ => ⟨A'.heap, A'.windows, A'.own⟩, ?_⟩, hhost, ?_,
            fun _ _ e he => by cases he⟩
          · rintro (h | h) <;> cases h
          · intro htame hv
            exact ⟨(hvalid htame hv).stack, (hvalid htame hv).globals⟩
    · -- a machine that has failed keeps its globals and its objects only
      rw [Machine.interpret, hstep]
      refine ⟨⟨Nat.zero_le _, fun _ => rfl, fun hne => absurd rfl hne, ?_⟩, hhost, ?_, ?_⟩
      · rintro (h | h) <;> cases h
      · intro _ hv
        refine ⟨fun v hmem => by simp [failed] at hmem, ?_⟩
        intro x v hx
        have hx' : m.globals[x]? = some v := by
          rw [← hglobals]
          exact hx
        exact (hv.globals x v hx').extends hheap
      · intro _ hv e' he
        cases he
        exact hfault.resolve_right (fun h => h.2 hv)

/-- A sound machine that runs leads to sound machines, whatever the budget. -/
theorem Sound.proceed (S : m.Sound lib) (hrun : m.frames ≠ []) (budget : Nat) :
    Leads lib m (m.proceed budget) := by
  have A := S.aligned hrun
  have A' : ({ m with status := .running } : Machine).Aligned lib := ⟨A.heap, A.windows, A.own⟩
  have hleads := A'.interpret hrun S.limit budget ""
  refine Leads.after ?_ ?_ hleads
  · rfl
  · exact fun _ hv => ⟨hv.stack, hv.globals⟩

theorem Sound.refuse (S : m.Sound lib) : Leads lib m m.refuse := by
  refine ⟨S, rfl, fun _ hv => hv, ?_⟩
  intro _ _ e he
  cases he
  rfl

/-- Running a sound machine leads to sound machines. -/
theorem Sound.run (S : m.Sound lib) (budget : Nat) : Leads lib m (m.run budget) := by
  unfold Machine.run
  split
  · next hready => exact S.proceed (S.started (.inl hready)) budget
  · exact S.refuse

/-- Resuming a sound machine leads to sound machines. -/
theorem Sound.resume (S : m.Sound lib) (budget : Nat) : Leads lib m (m.resume budget) := by
  unfold Machine.resume
  split
  · next hready => exact S.proceed (S.started (.inl hready)) budget
  · next hsuspended => exact S.proceed (S.started (.inr hsuspended)) budget
  · exact S.refuse

/-! ## Loading -/

/-- A machine with nothing running, whose globals are objects of its heap. -/
structure Stocked (lib : Library) (m : Machine) : Prop where
  heap : m.heap.Known lib m.host
  globals : ∀ (x : String) (v : Value), m.globals[x]? = some v → v.Lives m.heap

/-- Resetting a machine leaves nothing that could be unsound. -/
theorem stocked_reset (lib : Library) (m : Machine) : m.reset.Stocked lib := by
  refine ⟨Heap.known_empty lib m.host, ?_⟩
  intro x v hx
  simp [reset, new] at hx

/-- A text among the globals is one of the objects. -/
theorem Stocked.intern (S : m.Stocked lib) (text : String) : (m.intern text).Stocked lib := by
  refine ⟨S.heap.intern text, ?_⟩
  intro x v hx
  exact (S.globals x v hx).extends (Heap.intern_spec S.heap.canonical text).2.2

/-- An object of the host can be made a global. -/
theorem Stocked.bind (S : m.Stocked lib) (name : String) {object : Object}
    (hknown : (m.heap.alloc object).2.Known lib m.host)
    (hx : m.heap.Extends (m.heap.alloc object).2)
    (hget : ∃ o, (m.heap.alloc object).2.get? (m.heap.alloc object).1 = some o) :
    (m.bind name object).Stocked lib := by
  refine ⟨hknown, ?_⟩
  refine lives_insert (fun x v hv => (S.globals x v hv).extends hx) ?_
  intro ref href
  cases href
  exact Heap.lt_size_iff.mpr hget

theorem Stocked.bindNative (S : m.Stocked lib) {name : String} {n : Native}
    (hn : m.host.natives[name]? = some n) : (m.bind name (.native n)).Stocked lib := by
  obtain ⟨hget, -, hx⟩ := Heap.native_spec S.heap.canonical n
  exact S.bind name (S.heap.native hn) hx ⟨_, hget⟩

theorem Stocked.bindScript (S : m.Stocked lib) {name : String} {f : Function} (hf : lib.Holds f) :
    (m.bind name (.function f)).Stocked lib := by
  obtain ⟨hknown, hget⟩ := S.heap.function hf
  exact S.bind name hknown (Heap.function_spec S.heap.canonical f).2.2 ⟨_, hget⟩

/-- All that a host offers can be made global. -/
theorem Stocked.bindHost (S : m.Stocked lib) (hfrom : m.host.From lib) :
    m.bindHost.Stocked lib ∧ m.bindHost.host = m.host := by
  have hnatives := foldl_table_rel (fun (k _ : Machine) => k.Stocked lib ∧ k.host = m.host)
    m.host.natives (f := fun k name n => k.bind name (.native n))
    (g := fun k name n => k.bind name (.native n)) (y := m) ⟨S, rfl⟩ (by
      rintro name n hn k _ ⟨hk, hhost⟩
      exact ⟨hk.bindNative (by rw [hhost]; exact hn), hhost⟩)
  unfold Machine.bindHost
  dsimp only
  rw [hnatives.2]
  refine foldl_table_rel (fun (k _ : Machine) => k.Stocked lib ∧ k.host = m.host) m.host.scripts
    (g := fun k name f => k.bind name (.function f)) (y := m) hnatives ?_
  rintro name f hf k _ ⟨hk, hhost⟩
  exact ⟨hk.bindScript (hfrom name f hf), hhost⟩

/-- The texts of a program can be put on the heap before it runs. -/
theorem stocked_foldl_intern (texts : List String) (S : m.Stocked lib) :
    (texts.foldl Machine.intern m).Stocked lib ∧ (texts.foldl Machine.intern m).host = m.host := by
  induction texts generalizing m with
  | nil => exact ⟨S, rfl⟩
  | cons text texts ih => exact ih (S.intern text)

/-- A machine with a program that has just been loaded is sound, and all objects are there. -/
theorem sound_load {unit : Nat} {p : Program} (hfrom : m.host.From lib)
    (hp : lib.program unit = .ok p) :
    (m.load p).Sound lib ∧ (m.load p).Valid ∧ (m.load p).host = m.host := by
  obtain ⟨hstrings, hhost⟩ := stocked_foldl_intern p.strings (stocked_reset lib m)
  have hreset : m.reset.host = m.host := rfl
  obtain ⟨hbound, hhost'⟩ := hstrings.bindHost (by rw [hhost]; exact hfrom)
  -- the script comes last: the rest is on the heap already
  have hmain := Library.holds_main hp
  obtain ⟨hknown, hget⟩ := hbound.heap.function hmain
  have hx := (Heap.function_spec hbound.heap.canonical p.main).2.2
  obtain ⟨bodies, hmade⟩ := hmain.madeOf
  obtain ⟨body, -, hbalanced⟩ := hmade.balanced
  -- so its part of the stack is slot zero alone
  have harity : p.main.arity = 0 := by
    obtain ⟨s, body, c, -, -, rfl, -, -⟩ := resolved_of_compile hp
    rfl
  have hsize : 0 < p.main.chunk.code.size := by
    obtain ⟨lastLine, hcode⟩ := hbalanced.code
    rw [← Array.length_toList, hcode, List.length_append, length_placeOn]
    show 0 < body.postorder.length + 2
    omega
  refine ⟨⟨?_, ?_, fun _ => ⟨hknown, .inr ⟨?_, ?_⟩, ?_⟩, ?_⟩, ⟨?_, ?_⟩, ?_⟩
  · show 1 ≤ stackLimit
    decide
  · intro hnil
    cases hnil
  · intro hnil
    cases hnil
  · refine ⟨hmain, hsize, ?_, List.forall_mem_nil _, rfl⟩
    show 1 = 0 + p.main.depth 0
    rw [hbalanced.start, harity]
  · intro fr hfr
    obtain rfl : fr = ⟨p.main, 0, 0⟩ := List.mem_singleton.mp hfr
    exact ⟨_, rfl, hget⟩
  · intro _ hnil
    cases hnil
  · intro v hv ref href
    obtain rfl := List.mem_singleton.mp hv
    cases href
    exact Heap.lt_size_iff.mpr ⟨_, hget⟩
  · intro x v hv
    exact (hbound.globals x v hv).extends hx
  · exact hhost'.trans (hhost.trans hreset)

/-! ## Reaching -/

/-- A machine with nothing loaded is sound. -/
theorem sound_reset (lib : Library) (m : Machine) : m.reset.Sound lib ∧ m.reset.Valid := by
  refine ⟨⟨Nat.zero_le _, fun _ => rfl, fun hne => absurd rfl hne, ?_⟩, ?_, ?_⟩
  · rintro (h | h) <;> cases h
  · intro v hv
    cases hv
  · exact (stocked_reset lib m).globals

/-- The machines that a host can get to, with programs of a library. -/
inductive Reachable (lib : Library) (host : Host) : Machine → Prop where
  | new : Reachable lib host (new host)
  | redirect {m : Machine} (sink : Sink) :
    Reachable lib host m → Reachable lib host { m with sink := sink }
  | load {m : Machine} {unit : Nat} {p : Program} :
    Reachable lib host m → lib.program unit = .ok p → Reachable lib host (m.load p)
  | run {m : Machine} (budget : Nat) :
    Reachable lib host m → Reachable lib host (m.run budget).machine
  | resume {m : Machine} (budget : Nat) :
    Reachable lib host m → Reachable lib host (m.resume budget).machine
  | reset {m : Machine} : Reachable lib host m → Reachable lib host m.reset

variable {host : Host}

/-- Every machine that a host can get to is sound. -/
theorem Reachable.sound (hfrom : host.From lib) (h : Reachable lib host m) :
    m.Sound lib ∧ m.host = host := by
  induction h with
  | new => exact ⟨(sound_reset lib (Machine.new host)).1, rfl⟩
  | redirect sink _ ih =>
    obtain ⟨S, hhost⟩ := ih
    refine ⟨⟨S.limit, S.idle, ?_, S.started⟩, hhost⟩
    intro hne
    have A := S.aligned hne
    exact ⟨A.heap, A.windows, A.own⟩
  | load _ hp ih =>
    obtain ⟨S, -, hhost⟩ := sound_load (ih.2 ▸ hfrom) hp
    exact ⟨S, hhost.trans ih.2⟩
  | run budget _ ih =>
    have hleads := ih.1.run budget
    exact ⟨hleads.sound, hleads.host.trans ih.2⟩
  | resume budget _ ih =>
    have hleads := ih.1.resume budget
    exact ⟨hleads.sound, hleads.host.trans ih.2⟩
  | reset _ ih => exact ⟨(sound_reset lib _).1, ih.2⟩

/-- With tame natives no object is ever missed. -/
theorem Reachable.valid (hfrom : host.From lib) (htame : host.Tame) (h : Reachable lib host m) :
    m.Valid := by
  induction h with
  | new => exact (sound_reset lib (Machine.new host)).2
  | redirect sink _ ih => exact ⟨ih.stack, ih.globals⟩
  | load hm hp _ =>
    obtain ⟨-, hhost⟩ := hm.sound hfrom
    exact (sound_load (hhost ▸ hfrom) hp).2.1
  | run budget hm ih =>
    obtain ⟨S, hhost⟩ := hm.sound hfrom
    exact (S.run budget).valid (hhost ▸ htame) ih
  | resume budget hm ih =>
    obtain ⟨S, hhost⟩ := hm.sound hfrom
    exact (S.resume budget).valid (hhost ▸ htame) ih
  | reset _ _ => exact (sound_reset lib _).2

end Machine

end EntityScript
