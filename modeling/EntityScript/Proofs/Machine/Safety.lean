/-
# Compiled code never goes wrong

The host of a machine is built from natives and from functions of compiled programs.  With such a
host every machine that can be reached has the stack that its code expects (`stack_balanced`), and
no run of it ever stops with one of the faults that are kept for broken code (`compiled_code_safe`).
-/
import EntityScript.Host.Builtins
import EntityScript.Proofs.Machine.Reachability

namespace EntityScript

/-! ## Hosts -/

namespace Host

variable {lib : Library} {host : Host}

theorem from_empty (lib : Library) : empty.From lib := by
  intro name f h
  simp [empty] at h

theorem tame_empty : empty.Tame := by
  intro name n h
  simp [empty] at h

theorem From.addNative (h : host.From lib) (n : Native) : (host.addNative n).From lib :=
  h

/-- A function of the library may be registered. -/
theorem From.addScript (h : host.From lib) (name : String) {f : Function} (hf : lib.Holds f) :
    (host.addScript name f).From lib := by
  intro x g hg
  simp only [Host.addScript, Std.TreeMap.getElem?_insert] at hg
  split at hg
  · obtain rfl := Option.some.inj hg
    exact hf
  · exact h x g hg

/-- The functions of a compiled program may be offered to scripts. -/
theorem From.addProgram (h : host.From lib) {unit : Nat} {p : Program}
    (hp : lib.program unit = .ok p) :
    (host.addProgram p).From lib := by
  have hfunctions : ∀ f ∈ p.functions, lib.Holds f := fun f hf => Library.holds_function hp hf
  unfold Host.addProgram
  revert hfunctions
  generalize p.functions = fs
  induction fs generalizing host with
  | nil => exact fun _ => h
  | cons f fs ih =>
    intro hfunctions
    refine ih ?_ (fun g hg => hfunctions g (List.mem_cons_of_mem _ hg))
    unfold Host.addNamed
    split
    · exact h.addScript _ (hfunctions f List.mem_cons_self)
    · exact h

/-- A host stays tame if a tame native is added. -/
theorem Tame.addNative (h : host.Tame) {n : Native} (hn : n.Tame) : (host.addNative n).Tame := by
  intro x k hk
  simp only [Host.addNative, Std.TreeMap.getElem?_insert] at hk
  split at hk
  · obtain rfl := Option.some.inj hk
    exact hn
  · exact h x k hk

/-- Registering a library adds no native. -/
theorem addProgram_natives (host : Host) (p : Program) :
    (host.addProgram p).natives = host.natives := by
  unfold Host.addProgram
  induction p.functions generalizing host with
  | nil => rfl
  | cons f fs ih =>
    rw [List.foldl_cons, ih, addNamed]
    split <;> rfl

theorem Tame.addProgram (h : host.Tame) (p : Program) : (host.addProgram p).Tame := by
  intro x k hk
  rw [addProgram_natives] at hk
  exact h x k hk

end Host

/-! ## Built-in natives -/

namespace Builtin

/-- A native on two numbers gives no object. -/
theorem plainResult_binary {f : Float → Float → Value} (hf : ∀ x y, (f x y).isObject = false)
    (arguments : List Value) : PlainResult (binary f arguments) := by
  unfold binary
  cases number arguments 0 with
  | error e => exact plainResult_error e
  | ok x =>
    cases number arguments 1 with
    | error e => exact plainResult_error e
    | ok y => exact plainResult_ok (hf x y)

/-- A function of the first argument as a number. -/
theorem plainResult_number {f : Float → Except String Value} (hf : ∀ x, PlainResult (f x))
    (arguments : List Value) : PlainResult (number arguments 0 >>= f) := by
  cases number arguments 0 with
  | error e => exact plainResult_error e
  | ok x => exact hf x

/-- A conversion to an integer gives an integer or an error. -/
theorem plainResult_toInt (n : Option Int) (x : Float) : PlainResult (toInt n x) := by
  unfold toInt
  split
  · split
    · exact plainResult_ok rfl
    · exact plainResult_error _
  · exact plainResult_error _

theorem plainResult_abs (arguments : List Value) : PlainResult (abs arguments) := by
  unfold abs
  split
  · split
    · exact plainResult_ok rfl
    · exact plainResult_error _
  · exact plainResult_number (fun _ => plainResult_ok rfl) arguments

theorem plainResult_int (arguments : List Value) : PlainResult (int arguments) := by
  unfold int
  split
  · exact plainResult_ok rfl
  · exact plainResult_number (fun _ => plainResult_toInt _ _) arguments

/-- No built-in native gives an object. -/
theorem plainResult_of_mem {edition : Nat} {n : Native} (h : n ∈ all edition)
    (arguments : List Value) :
    PlainResult (n.call arguments) := by
  simp only [all, List.mem_cons, List.not_mem_nil, or_false] at h
  rcases h with rfl | rfl | rfl | rfl | rfl | rfl | rfl | rfl
  · exact plainResult_binary (fun _ _ => rfl) arguments
  · exact plainResult_binary (fun _ _ => rfl) arguments
  · exact plainResult_binary (fun _ _ => rfl) arguments
  · exact plainResult_number (fun _ => plainResult_ok rfl) arguments
  · exact plainResult_abs arguments
  · exact plainResult_number (fun _ => plainResult_toInt _ _) arguments
  · exact plainResult_int arguments
  · exact plainResult_number (fun _ => plainResult_ok rfl) arguments

theorem tame_of_mem {edition : Nat} {n : Native} (h : n ∈ all edition) : n.Tame :=
  fun arguments v hv => .inl (plainResult_of_mem h arguments v hv)

end Builtin

/-- The host that every program starts with is tame. -/
theorem Host.tame_builtins : builtins.Tame := by
  have hall : ∀ n ∈ Builtin.all 0, n.Tame := fun n hn => Builtin.tame_of_mem hn
  unfold builtins
  revert hall
  generalize Builtin.all 0 = natives
  have hempty := tame_empty
  revert hempty
  generalize empty = host
  induction natives generalizing host with
  | nil => exact fun h _ => h
  | cons n ns ih =>
    intro h hall
    exact ih _ (h.addNative (hall n List.mem_cons_self))
      (fun k hk => hall k (List.mem_cons_of_mem _ hk))

/-- The builtins are natives only. -/
theorem Host.from_builtins (lib : Library) : builtins.From lib := by
  unfold builtins
  have hempty := from_empty lib
  revert hempty
  generalize empty = host
  induction Builtin.all 0 generalizing host with
  | nil => exact fun h => h
  | cons n ns ih => exact fun h => ih _ (h.addNative n)

/-! ## A host with a function of its own -/

/-- A script that calls a function of its host in a loop, and the script that this function is
from. -/
def Library.doubling : Library
  | 0 =>
    (["twice"], "let n = 0; while (n < 3) \x7b let s = twice(n); print s; n = n + 1; yield; \x7d")
  | _ => ([], "fun twice(x) \x7b let y = x + x; return y; \x7d")

/-- The machine that runs the script, after some instructions. -/
def Machine.doubling (budget : Nat) : Machine :=
  match Library.doubling.program 0, Library.doubling.program 1 with
  | .ok p, .ok q => (((new (Host.builtins.addProgram q)).load p).run budget).machine
  | _, _ => new .empty

/-- The machine after any number of steps is one that the host can get to. -/
theorem reachable_doubling (budget : Nat) : ∃ host : Host, host.From .doubling ∧ host.Tame ∧
    Machine.Reachable .doubling host (.doubling budget) := by
  unfold Machine.doubling
  split
  · next p q hp hq =>
    have hfrom := (Host.from_builtins Library.doubling).addProgram hq
    exact ⟨_, hfrom, Host.tame_builtins.addProgram q, .run budget (.load .new hp)⟩
  · exact ⟨.empty, Host.from_empty _, Host.tame_empty, .new⟩

/-- In the midst of a call of the function there are two active calls. -/
theorem doubling_frames : (Machine.doubling 13).frames.map Frame.base = [1, 0] := by
  decide +kernel

/-! ## Balance -/

/-- The code of every function of a compiled program is balanced, and every machine that can be
reached has the values on its stack that the code says: the innermost call up to its cursor, and
each call that waits up to the place of the result it waits for. -/
theorem stack_balanced (lib : Library) :
    (∀ unit p, lib.program unit = .ok p → ∃ (s : Script) (body : Block) (c : Context),
      s.Spelled (tokens (lib unit).2) ∧
      Clause.elaborateAll s.body .empty (.start unit (lib unit).1) = some (body, c) ∧
      ∀ f ∈ p.main.family, ∃ b ∈ body :: body.bodies, f.Balanced b) ∧
    ∀ host, host.From lib → ∀ m, Machine.Reachable lib host m → ∀ fr rest, m.frames = fr :: rest →
      lib.Holds fr.function ∧ m.stack.size = fr.base + fr.function.depth fr.cursor ∧
      Windows lib rest (fr.base + 1) := by
  constructor
  · intro unit p hp
    obtain ⟨s, body, c, hs, hb, rfl, hfits, hcomp⟩ := resolved_of_compile hp
    refine ⟨s, body, c, hs, hb, ?_⟩
    intro f hf
    refine Function.MadeOf.balanced ?_
    rw [Function.family_eq] at hf
    rcases List.mem_cons.mp hf with rfl | hf
    · exact ⟨body, List.mem_cons_self, hfits, s.lastLine, rfl⟩
    · exact (hcomp.fitting f hf).mono (List.subset_cons_self _ _)
  · intro host hfrom m hm fr rest hframes
    have hne : m.frames ≠ [] := by
      rw [hframes]
      exact List.cons_ne_nil _ _
    have A := (hm.sound hfrom).1.aligned hne
    rcases A.windows with ⟨hnil, -⟩ | ⟨-, hw⟩
    · exact absurd hnil hne
    · rw [hframes] at hw
      obtain ⟨hholds, -, hsize, -, hrest⟩ := hw
      exact ⟨hholds, hsize, hrest⟩

/-- Two calls in the midst of their functions. -/
theorem stack_balanced_doubling :
    (∃ p, Library.doubling.program 0 = .ok p ∧ ∀ f ∈ p.main.family, ∃ b, f.Balanced b) ∧
    (Machine.doubling 13).frames.map Frame.base = [1, 0] ∧
    ∀ fr rest, (Machine.doubling 13).frames = fr :: rest →
      (Machine.doubling 13).stack.size = fr.base + fr.function.depth fr.cursor := by
  obtain ⟨hcode, hstack⟩ := stack_balanced Library.doubling
  refine ⟨?_, doubling_frames, ?_⟩
  · have hok : (Library.doubling.program 0).isOk = true := by decide +kernel
    obtain ⟨p, hp⟩ := exists_of_isOk hok
    obtain ⟨s, body, c, -, -, hbalanced⟩ := hcode 0 p hp
    refine ⟨p, hp, ?_⟩
    intro f hf
    obtain ⟨b, -, hb⟩ := hbalanced f hf
    exact ⟨b, hb⟩
  · obtain ⟨host, hfrom, -, hm⟩ := reachable_doubling 13
    intro fr rest hframes
    exact (hstack host hfrom _ hm fr rest hframes).2.1

/-! ## Safety -/

/-- A machine whose host offers functions of compiled programs, and natives that give plain values
or one of their arguments, never misses an object, and slot zero of every call keeps its function.
No step and no call of `run` or `resume` stops with a fault that is kept for broken code. -/
theorem compiled_code_safe (lib : Library) (host : Host) (hfrom : host.From lib) (htame : host.Tame)
    (m : Machine) (hm : Machine.Reachable lib host m) :
    (∀ v ∈ m.stack.toList, ∀ ref, v = .object ref → ref.index < m.heap.size) ∧
    (∀ (x : String) v, m.globals[x]? = some v → ∀ ref, v = .object ref → ref.index < m.heap.size) ∧
    (∀ fr ∈ m.frames, ∃ ref, m.stack[fr.base]? = some (.object ref) ∧
      m.heap.get? ref = some (.function fr.function)) ∧
    (∀ e m', m.frames ≠ [] → Exec.step.run m = .error e m' → e.isInternal = false) ∧
    ∀ budget e, (m.run budget).outcome = .faulted e ∨ (m.resume budget).outcome = .faulted e →
      e.fault.isInternal = false := by
  obtain ⟨S, hhost⟩ := hm.sound hfrom
  have hvalid := hm.valid hfrom htame
  have htame' : m.host.Tame := hhost ▸ htame
  refine ⟨hvalid.stack, hvalid.globals, ?_, ?_, ?_⟩
  · intro fr hfr
    exact (S.aligned (List.ne_nil_of_mem hfr)).own fr hfr
  · intro e m' hrun herror
    rcases (S.aligned hrun).step hrun S.limit with ⟨sig, k, hstep, -⟩ | ⟨e', k, hstep, hfault, -⟩
    · rw [herror] at hstep
      cases hstep
    · rw [herror] at hstep
      cases hstep
      exact hfault.resolve_right (fun h => h.2 hvalid)
  · rintro budget e (he | he)
    · exact (S.run budget).fault htame' hvalid e he
    · exact (S.resume budget).fault htame' hvalid e he

theorem compiled_code_safe_doubling :
    (Machine.doubling 13).frames.map Frame.base = [1, 0] ∧
    (∀ v ∈ (Machine.doubling 13).stack.toList, v.Lives (Machine.doubling 13).heap) ∧
    (∀ fr ∈ (Machine.doubling 13).frames, ∃ ref,
      (Machine.doubling 13).stack[fr.base]? = some (.object ref) ∧
      (Machine.doubling 13).heap.get? ref = some (.function fr.function)) ∧
    ∀ e m', Exec.step.run (Machine.doubling 13) = .error e m' → e.isInternal = false := by
  obtain ⟨host, hfrom, htame, hm⟩ := reachable_doubling 13
  obtain ⟨hstack, -, hown, hstep, -⟩ := compiled_code_safe _ host hfrom htame _ hm
  have hne : (Machine.doubling 13).frames ≠ [] := by
    intro hnil
    have hframes := doubling_frames
    rw [hnil] at hframes
    cases hframes
  exact ⟨doubling_frames, hstack, hown, fun e m' => hstep e m' hne⟩

end EntityScript
