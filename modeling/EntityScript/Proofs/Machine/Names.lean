/-
# Names are defined when they are used

The compiler looks at the text of a script: a global may be used below its declaration.  The machine
looks for it when the instruction is executed, which may be in a function that was stored away,
passed on and called from elsewhere.

What keeps the two together is an invariant of the machine (`Machine.Settled`): the script itself
has defined all globals above its cursor, and a function on the heap needs none that is not defined,
except that a function may need the one that the next instruction is about to define.  A function
gets there when the instruction that makes it is executed, and it can be called only after the next
one.
-/
import EntityScript.Host.Builtins
import EntityScript.Machine.Run
import EntityScript.Proofs.Compile.Acceptance
import EntityScript.Proofs.Machine.Effect
import EntityScript.Proofs.Script.Globals

namespace EntityScript

namespace Machine

/-- The next instruction defines a global. -/
def Awaits (m : Machine) (x : String) : Prop :=
  ∃ fr rest p, m.frames = fr :: rest ∧ fr.function.chunk.code.toList[fr.cursor]? = some p ∧
    Defines fr.function.chunk.literals [p] x

/-- A call needs only globals that are defined; for the script itself they are those above its
cursor. -/
def Provides (m : Machine) (main : Function) (fr : Frame) : Prop :=
  fr.function.Within (· ∈ m.globals) ∨ fr.function = main ∧
    ∀ x, Defines main.chunk.literals (main.chunk.code.toList.take fr.cursor) x → x ∈ m.globals

/-- The functions of a machine that executes the script `main` need only globals that are
defined. -/
structure Settled (known : String → Prop) (main : Function) (m : Machine) : Prop where
  known : ∀ x, known x → x ∈ m.globals
  functions : ∀ f, m.heap.Has f → f = main ∨ f.Within fun x => x ∈ m.globals ∨ m.Awaits x
  frames : ∀ fr ∈ m.frames, m.Provides main fr

section

variable {known : String → Prop} {main f : Function} {m m' : Machine} {i base : Nat}
  {rest : List Frame} {x : String} {instruction : Instruction} {line : Nat}

theorem Provides.mono {fr : Frame} (h : m.Provides main fr)
    (hglobals : ∀ x ∈ m.globals, x ∈ m'.globals) :
    m'.Provides main fr :=
  h.imp (·.mono hglobals) (And.imp_right fun h x hx => hglobals x (h x hx))

/-- What the next instruction defines is there after it. -/
theorem Moves.awaited (h : m.Moves f i base rest instruction m')
    (hm : m.frames = ⟨f, i, base⟩ :: rest) (hp : f.chunk.code.toList[i]? = some ⟨instruction, line⟩)
    (hx : m.Awaits x) : x ∈ m'.globals := by
  obtain ⟨fr, rest', p, hframes, hp', hdefines⟩ := hx
  rw [hm] at hframes
  obtain ⟨rfl, rfl⟩ := List.cons.inj hframes
  rw [hp] at hp'
  obtain rfl := Option.some.inj hp'
  obtain ⟨index, hindex, hname⟩ := defines_singleton.mp hdefines
  exact h.defines index x hindex hname

/-- What the code of a function has defined up to an instruction is there after it. -/
theorem Moves.above (h : m.Moves f i base rest instruction m')
    (hp : f.chunk.code.toList[i]? = some ⟨instruction, line⟩)
    (habove : ∀ x, Defines f.chunk.literals (f.chunk.code.toList.take i) x → x ∈ m.globals)
    (hx : Defines f.chunk.literals (f.chunk.code.toList.take (i + 1)) x) : x ∈ m'.globals := by
  rcases (defines_take_succ hp).mp hx with hx | hx
  · exact h.globals x (habove x hx)
  · obtain ⟨index, hindex, hname⟩ := defines_singleton.mp hx
    exact h.defines index x hindex hname

/-- One instruction keeps the machine settled. -/
theorem Settled.moves (S : m.Settled known main)
    (hmain : InOrder main.chunk.literals known main.chunk.code.toList)
    (hm : m.frames = ⟨f, i, base⟩ :: rest) (hp : f.chunk.code.toList[i]? = some ⟨instruction, line⟩)
    (h : m.Moves f i base rest instruction m') : m'.Settled known main := by
  have hprovides := S.frames ⟨f, i, base⟩ (by rw [hm]; exact List.mem_cons_self)
  -- a function that was there needs nothing that is not there now
  have hthere : ∀ g, m.heap.Has g → g = main ∨ g.Within (· ∈ m'.globals) := fun g hg =>
    (S.functions g hg).imp_right (·.mono fun x hx => hx.elim (h.globals x) (h.awaited hm hp))
  refine ⟨fun x hx => h.globals x (S.known x hx), fun g hg => ?_, fun fr hfr => ?_⟩
  · rcases h.makes g hg with hg | ⟨hframes, index, rfl, hg⟩
    · exact (hthere g hg).imp_right (·.mono fun x => .inl)
    · -- the function that the instruction has made
      refine .inr ?_
      rcases hprovides with hwithin | ⟨rfl, habove⟩
      · exact (hwithin.literal hg).mono fun x hx => .inl (h.globals x hx)
      · refine (hmain.makes i _ index g hp rfl hg).mono fun x hx => ?_
        rcases hx with hx | hx
        · exact .inl (h.globals x (S.known x hx))
        · cases hq : f.chunk.code.toList[i + 1]? with
          | none =>
            rw [List.take_add_one, hq, Option.toList_none, List.append_nil] at hx
            exact .inl (h.above hp habove hx)
          | some q =>
            exact ((defines_take_succ hq).mp hx).imp (h.above hp habove) fun hx =>
              ⟨_, _, q, hframes, hq, hx⟩
  · rcases h.frames fr hfr with hfr | ⟨rfl, hcursor⟩ | ⟨hzero, hhas⟩
    · exact (S.frames fr (by rw [hm]; exact List.mem_cons_of_mem _ hfr)).mono h.globals
    · rcases hprovides with hwithin | ⟨hself, habove⟩
      · exact .inl (hwithin.mono h.globals)
      · obtain rfl := hself
        exact .inr ⟨rfl, fun x hx => h.above hp habove (hmain.skips i _ fr.cursor x hp hcursor hx)⟩
    · rcases hthere _ hhas with hself | hwithin
      · refine .inr ⟨hself, fun x hx => ?_⟩
        rw [hzero] at hx
        exact absurd hx not_defines_nil
      · exact .inl hwithin

/-- A settled machine finds every global that an instruction names. -/
theorem Settled.not_undefined (S : m.Settled known main)
    (hmain : InOrder main.chunk.literals known main.chunk.code.toList)
    (hm : m.frames = ⟨f, i, base⟩ :: rest) (hp : f.chunk.code.toList[i]? = some ⟨instruction, line⟩)
    {index : Nat} (hindex : instruction.global? = some index)
    (hx : f.chunk.literals[index]? = some (.string x)) : x ∈ m.globals := by
  have hneeds : Needs f.chunk.literals [⟨instruction, line⟩] x :=
    needs_singleton.mpr ⟨index, hindex, hx⟩
  rcases S.frames ⟨f, i, base⟩ (by rw [hm]; exact List.mem_cons_self) with hwithin | ⟨rfl, habove⟩
  · exact hwithin f f.self_mem_family x ⟨_, List.mem_of_getElem? hp, index, hindex, hx⟩
  · exact (hmain.needs i _ x hp hneeds).elim (S.known x) (habove x)

/-- A step of a settled machine. -/
theorem Settled.step (S : m.Settled known main)
    (hmain : InOrder main.chunk.literals known main.chunk.code.toList) :
    Exec.Ends Exec.step m (fun _ m' => m'.Settled known main) fun e =>
    ∀ x, e ≠ .undefinedVariable x := by
  cases hm : m.frames with
  | nil =>
    exact (Exec.ends_step_nil hm).mono (fun _ _ h => h.elim) fun e he x hx => by
      rw [he] at hx
      cases hx
  | cons fr rest =>
    obtain ⟨f, i, base⟩ := fr
    refine (Exec.ends_step hm).mono ?_ ?_
    · rintro _ m' ⟨instruction, line, hp, hmoves⟩
      exact S.moves hmain hm hp hmoves
    · rintro e he x rfl
      obtain ⟨instruction, line, hp, hnot, index, hindex, hx⟩ := he x rfl
      exact hnot (S.not_undefined hmain hm hp hindex hx)

/-! ## Runs -/

/-- A machine is settled, or it has failed and cannot go on. -/
def Stays (known : String → Prop) (main : Function) (m : Machine) : Prop :=
  m.Settled known main ∨ ∃ e, m.status = .faulted e

/-- How a run of a settled machine ends: it stays settled, and not because a global was missing. -/
structure Finds (known : String → Prop) (main : Function) (r : Run) : Prop where
  machine : r.machine.Stays known main
  outcome : ∀ x trace, r.outcome ≠ .faulted ⟨.undefinedVariable x, trace⟩

/-- Whether a machine is settled depends on its calls, its globals and its heap alone. -/
theorem Settled.of_eq (S : m.Settled known main) (hframes : m'.frames = m.frames)
    (hglobals : m'.globals = m.globals) (hheap : m'.heap = m.heap) : m'.Settled known main := by
  have hawaits : ∀ x, m.Awaits x → m'.Awaits x := fun x => by
    rintro ⟨fr, rest, p, hfr, hp⟩
    exact ⟨fr, rest, p, hframes.trans hfr, hp⟩
  refine ⟨fun x hx => ?_, fun f hf => ?_, fun fr hfr => ?_⟩
  · rw [hglobals]
    exact S.known x hx
  · rw [hheap] at hf
    exact (S.functions f hf).imp_right (·.mono fun x hx => hx.imp (hglobals ▸ ·) (hawaits x))
  · rw [hframes] at hfr
    exact (S.frames fr hfr).mono fun x hx => hglobals ▸ hx

theorem Settled.exited (S : m.Settled known main) (e : Exit) : (m.exited e).Settled known main := by
  cases e <;> exact S.of_eq rfl rfl rfl

/-- A run of a settled machine misses no global. -/
theorem Settled.interpret (hmain : InOrder main.chunk.literals known main.chunk.code.toList)
    (budget : Nat) (S : m.Settled known main) (text : String) :
    Finds known main (interpret budget m text) := by
  induction budget generalizing m text with
  | zero => exact ⟨.inl S, fun _ _ h => by cases h⟩
  | succ n ih =>
    have hstep := S.step hmain
    rw [Machine.interpret]
    cases hrun : Exec.step.run m with
    | ok signal m' =>
      have S' := hstep.ok hrun
      cases signal with
      | next | printed => exact ih S' _
      | exit e => exact ⟨.inl (S'.exited e), fun _ _ h => by cases h⟩
    | error e m' =>
      refine ⟨.inr ⟨_, rfl⟩, fun x trace h => ?_⟩
      have he := RuntimeError.mk.inj (Outcome.faulted.inj h)
      exact hstep.error hrun x he.1

theorem Settled.proceed (hmain : InOrder main.chunk.literals known main.chunk.code.toList)
    (S : m.Settled known main) (budget : Nat) : Finds known main (m.proceed budget) := by
  have S' : Settled known main { m with status := .running } := S.of_eq rfl rfl rfl
  exact S'.interpret hmain budget ""

theorem Stays.refuse (h : m.Stays known main) : Finds known main m.refuse :=
  ⟨h, fun _ _ h => by cases h⟩

/-- Running a machine that stays settled misses no global. -/
theorem Stays.run (hmain : InOrder main.chunk.literals known main.chunk.code.toList)
    (h : m.Stays known main) (budget : Nat) : Finds known main (m.run budget) := by
  rw [Machine.run]
  split
  · next hready =>
    rcases h with S | ⟨e, he⟩
    · exact S.proceed hmain budget
    · rw [hready] at he
      cases he
  · exact h.refuse

/-- Resuming a machine that stays settled misses no global. -/
theorem Stays.resume (hmain : InOrder main.chunk.literals known main.chunk.code.toList)
    (h : m.Stays known main) (budget : Nat) : Finds known main (m.resume budget) := by
  have hproceed : (∀ e, m.status ≠ .faulted e) → Finds known main (m.proceed budget) := by
    intro hstatus
    rcases h with S | ⟨e, he⟩
    · exact S.proceed hmain budget
    · exact absurd he (hstatus e)
  rw [Machine.resume]
  split
  · next hready => exact hproceed fun e he => by rw [hready] at he; cases he
  · next hsuspended => exact hproceed fun e he => by rw [hsuspended] at he; cases he
  · exact h.refuse

/-! ## Loading -/

/-- Making a global adds its name and no other. -/
theorem mem_globals_bind (m : Machine) (name : String) (object : Object) :
    x ∈ (m.bind name object).globals ↔ x = name ∨ x ∈ m.globals := by
  show x ∈ m.globals.insert name _ ↔ _
  rw [Std.TreeMap.mem_insert, Std.LawfulEqCmp.compare_eq_iff_eq, eq_comm]

/-- The names of a table become globals when its entries are bound. -/
theorem mem_globals_foldl {α : Type} (table : Std.TreeMap String α) (object : α → Object)
    (m : Machine) :
    x ∈ (table.foldl (fun m name a => m.bind name (object a)) m).globals ↔ x ∈ table.keys ∨
    x ∈ m.globals := by
  rw [Std.TreeMap.foldl_eq_foldl_toList, ← Std.TreeMap.map_fst_toList_eq_keys]
  induction table.toList generalizing m with
  | nil => simp
  | cons entry entries ih =>
    rw [List.foldl_cons, ih, mem_globals_bind, List.map_cons, List.mem_cons, or_assoc, or_left_comm]

/-- Making a global adds the function that it is for, if it is for one. -/
theorem has_bind {object : Object} {name : String} (hf : (m.bind name object).heap.Has f) :
    m.heap.Has f ∨ object = .function f := by
  cases object with
  | string text => exact .inl (Heap.has_intern hf)
  | function g => exact (Heap.has_function hf).imp_right fun h => congrArg Object.function h.symm
  | native n =>
    obtain ⟨ref, hf⟩ := hf
    rcases Heap.get?_native hf with hf | hf
    · exact .inl ⟨ref, hf⟩
    · cases hf

/-- Binding the functions of the host makes its names globals and puts its scripts on the heap. -/
theorem bindHost_spec (m : Machine) :
    (∀ x ∈ m.host.names, x ∈ m.bindHost.globals) ∧
      ∀ f, m.bindHost.heap.Has f → m.heap.Has f ∨
      ∃ name : String, m.host.scripts[name]? = some f := by
  -- first the natives are bound, which gives `k`, and then the scripts
  obtain ⟨k, hk⟩ : ∃ k, k = m.host.natives.foldl (fun m name n => m.bind name (.native n)) m :=
    ⟨_, rfl⟩
  have hhost : k.host = m.host := by
    rw [hk]
    exact foldl_table_rel (fun (k : Machine) (_ : Unit) => k.host = m.host) _ (g := fun _ _ _ => ())
      (y := ()) rfl fun _ _ _ _ _ h => h
  have hbound : m.bindHost = k.host.scripts.foldl
    (fun m name f => m.bind name (.function f)) k := by
    rw [hk]
    rfl
  rw [hhost] at hbound
  rw [hbound]
  constructor
  · intro x hx
    rw [mem_globals_foldl, hk, mem_globals_foldl]
    rcases List.mem_append.mp hx with hx | hx
    · exact .inr (.inl hx)
    · exact .inl hx
  · have hnatives : ∀ f, k.heap.Has f → m.heap.Has f := by
      rw [hk]
      exact foldl_table_rel (fun (k : Machine) (_ : Unit) => ∀ f, k.heap.Has f → m.heap.Has f) _
        (g := fun _ _ _ => ()) (y := ()) (fun _ h => h) fun name n _ k _ ih f hf =>
          (has_bind hf).elim (ih f) fun h => by cases h
    exact foldl_table_rel (fun (k : Machine) (_ : Unit) => ∀ f, k.heap.Has f →
        m.heap.Has f ∨ ∃ name : String, m.host.scripts[name]? = some f) _
        (g := fun _ _ _ => ()) (y := ())
      (fun f hf => .inl (hnatives f hf)) fun name g hg k _ ih f hf => by
        rcases has_bind hf with hf | hf
        · exact ih f hf
        · obtain rfl := Object.function.inj hf
          exact .inr ⟨name, hg⟩

/-- A script that has just been loaded is settled, if the functions of the host need only names of
the host. -/
theorem settled_load {p : Program}
    (hscripts : ∀ (name : String) (f : Function),
      m.host.scripts[name]? = some f → f.Within (· ∈ m.host.names)) :
    (m.load p).Settled (· ∈ m.host.names) p.main := by
  obtain ⟨k, hk⟩ : ∃ k, k = p.strings.foldl intern m.reset := ⟨_, rfl⟩
  have htexts : k.host = m.host ∧ ∀ f, ¬ k.heap.Has f := by
    rw [hk]
    refine List.foldlRecOn (motive := fun k : Machine => k.host = m.host ∧ ∀ f, ¬ k.heap.Has f)
      p.strings intern (b := m.reset) ⟨rfl, ?_⟩ fun k hk _ _ =>
      ⟨hk.1, fun f hf => hk.2 f (Heap.has_intern hf)⟩
    rintro f ⟨ref, hf⟩
    cases hf
  obtain ⟨hnames, hfunctions⟩ := bindHost_spec k
  rw [htexts.1] at hnames hfunctions
  have hload : m.load p = { k.bindHost with
      heap := (k.bindHost.heap.function p.main).2
      stack := #[.object (k.bindHost.heap.function p.main).1]
      frames := [⟨p.main, 0, 0⟩]
      status := .ready } := by rw [hk]; rfl
  rw [hload]
  refine ⟨hnames, fun f hf => ?_, fun fr hfr => ?_⟩
  · rcases Heap.has_function hf with hf | rfl
    · rcases hfunctions f hf with hf | ⟨name, hname⟩
      · exact absurd hf (htexts.2 f)
      · exact .inr ((hscripts name f hname).mono fun x hx => .inl (hnames x hx))
    · exact .inl rfl
  · obtain rfl := List.mem_singleton.mp hfr
    exact .inr ⟨rfl, fun x hx => absurd hx not_defines_nil⟩

/-! ## Soundness -/

/-- The machines that come out of one when it is run and resumed, and its output redirected in
between. -/
inductive Later (m : Machine) : Machine → Prop where
  | same : Later m m
  | redirect {k : Machine} (sink : Sink) : Later m k → Later m { k with sink := sink }
  | run {k : Machine} (budget : Nat) : Later m k → Later m (k.run budget).machine
  | resume {k : Machine} (budget : Nat) : Later m k → Later m (k.resume budget).machine

/-- A settled machine stays so, whatever the host does in between. -/
theorem Later.stays (hmain : InOrder main.chunk.literals known main.chunk.code.toList)
    (S : m.Settled known main) (h : m.Later m') : m'.Stays known main := by
  induction h with
  | same => exact .inl S
  | redirect sink _ ih => exact ih.imp_left (·.of_eq rfl rfl rfl)
  | run budget _ ih => exact (ih.run hmain budget).machine
  | resume budget _ ih => exact (ih.resume hmain budget).machine

end

end Machine

/-- The compiler's check of names is sound.  A program that has been compiled against a host whose
own scripts mention only names of the host is loaded into a machine of this host: however often it
is run and resumed, and with whatever budgets, it never stops because a global is not defined. -/
theorem names_resolved {host : Host}
    (hscripts : ∀ (name : String) (f : Function),
      host.scripts[name]? = some f → f.Within (· ∈ host.names))
    {unit : Nat} {source : String} {p : Program} (hp : compile unit host.names source = .ok p)
    {m : Machine} (hm : m.host = host) {m' : Machine} (h : (m.load p).Later m') (budget : Nat)
    (x : String) (trace : List TraceFrame) :
    (m'.run budget).outcome ≠ .faulted ⟨.undefinedVariable x, trace⟩ ∧
      (m'.resume budget).outcome ≠ .faulted ⟨.undefinedVariable x, trace⟩ := by
  subst hm
  obtain ⟨s, hspelled, hprogram⟩ := spelled_of_compileTokens (orderly_tokens source) hp
  have hmain := s.inOrder_of_program? hspelled hprogram
  have hstays := h.stays hmain (Machine.settled_load hscripts)
  exact ⟨(hstays.run hmain budget).outcome x trace, (hstays.resume hmain budget).outcome x trace⟩

/-- A host with a script of its own, which uses a native of the host in a function inside its
function. -/
def Host.adding : Host :=
  (compile 1 builtins.names
    "fun twice(x) \x7b fun add(y) \x7b return abs(y) + y; \x7d return add(x); \x7d").toOption.elim
    builtins builtins.addProgram

/-- A script whose functions are passed on and call themselves, and that yields in the midst of such
calls. -/
def addingScript : String :=
  "let total = 0;
  fun add(n) \x7b total = total + twice(n); yield; \x7d
  fun each(f, n) \x7b if (0 < n) \x7b f(n); each(f, n - 1); \x7d \x7d
  each(add, 3);
  print total;"

/-- A host with a function of its own, and a script that passes its functions on and yields inside
them. -/
theorem names_resolved_adding :
    Host.adding.scripts.contains "twice" = true ∧
    ∃ p, compile 0 Host.adding.names addingScript = .ok p ∧
      ∀ (budget : Nat) (x : String) (trace : List TraceFrame),
        ((((Machine.new .adding).load p).run 60).machine.resume budget).outcome ≠
          .faulted ⟨.undefinedVariable x, trace⟩ := by
  have hscripts : ∀ e ∈ Host.adding.scripts.toList, e.2.Within (· ∈ Host.adding.names) := by
    decide +kernel
  have hok : (compile 0 Host.adding.names addingScript).isOk = true := by decide +kernel
  refine ⟨by decide +kernel, ?_⟩
  obtain ⟨p, hp⟩ := exists_of_isOk hok
  refine ⟨p, hp, fun budget x trace => ?_⟩
  have hhost : (Machine.new .adding).host = .adding := by rw [Machine.new]
  refine (names_resolved (fun name f hf => ?_) hp hhost (.run 60 .same) budget x trace).2
  exact hscripts (name, f) (Std.TreeMap.mem_toList_iff_getElem?_eq_some.mpr hf)

end EntityScript
