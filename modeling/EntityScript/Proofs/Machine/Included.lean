/-
# A library in front of a program

A program with a library in front runs as the program does on a host that offers the functions of
the library (`Link`).  After the same natives have been bound, the first machine has the functions
of the host as globals and declares those of the library, and the second has all of them from its
host; then the globals hold the same functions, and the machines go on in the same way
(`Link.running`).
-/
import EntityScript.Proofs.Compile.Including
import EntityScript.Proofs.Machine.Alongside
import EntityScript.Proofs.Machine.Offering
import EntityScript.Proofs.Machine.Pausing
import EntityScript.Proofs.Machine.Safety
import Mathlib.Logic.Function.Basic

namespace EntityScript

/-- The program that a library has for a unit is the one compiled from its source. -/
theorem Library.program_of_eq {lib : Library} {unit : Nat} {globals : List String} {source : String}
    {p : Program} (h : lib unit = (globals, source)) (hp : compile unit globals source = .ok p) :
    lib.program unit = .ok p := by
  rw [program, h]
  exact hp

/-- Another compilation does not matter to a function. -/
theorem Library.Holds.update {lib : Library} {f : Function} (h : lib.Holds f) {unit : Nat}
    (hne : f.id.unit ≠ unit) (entry : List String × String) :
    Library.Holds (Function.update lib unit entry) f := by
  obtain ⟨p, hp, hf⟩ := h
  refine ⟨p, ?_, hf⟩
  rw [program, Function.update_of_ne hne]
  exact hp

/-- A program with a library in front, and the same program on its own for a host with the functions
of the library. -/
structure Link where
  /-- The compilations that the functions of the host come from. -/
  known : Library
  host : Host
  unit : Nat
  first : Nat
  second : Nat
  source : String
  more : String
  /-- The program with the library. -/
  joined : Program
  lib : Program
  /-- The program on its own. -/
  rest : Program
  /-- The number of functions in the library, with those inside others. -/
  count : Nat
  /-- The functions that the joined program declares first. -/
  functions : List Function
  /-- The code that declares them. -/
  before : List Placed
  hosted : host.From known
  equivariant : host.Equivariant
  predates : host.Predates unit
  predatesFirst : host.Predates first
  predatesSecond : host.Predates second
  apart : first ≠ second
  compiles : compile unit host.names (source ++ "\n" ++ more) = .ok joined
  compilesLib : compile first host.names source = .ok lib
  compilesRest : compile second (host.addProgram lib).names more = .ok rest
  includes : joined.Includes (.parted unit first second count) lib rest functions before

namespace Link

/-- The sides of a library, whose natives are bound behind the given numbers of objects. -/
def sides (L : Link) (base base' : Nat) : Sides where
  renamed := .parted L.unit L.first L.second L.count
  known id := id.unit = L.unit ∨ id.unit ≠ L.first ∧ id.unit ≠ L.second
  lib := Function.update L.known L.unit (L.host.names, L.source ++ "\n" ++ L.more)
  lib' := Function.update (Function.update L.known L.first (L.host.names, L.source)) L.second
    ((L.host.addProgram L.lib).names, L.more)
  host := L.host
  host' := L.host.addProgram L.lib
  base := base
  base' := base'

variable (L : Link) (base base' : Nat)

/-! ## Programs -/

theorem program_unit : (L.sides base base').lib.program L.unit = .ok L.joined :=
  Library.program_of_eq (Function.update_self ..) L.compiles

theorem program_second : (L.sides base base').lib'.program L.second = .ok L.rest :=
  Library.program_of_eq (Function.update_self ..) L.compilesRest

theorem program_first : (L.sides base base').lib'.program L.first = .ok L.lib :=
  Library.program_of_eq ((Function.update_of_ne L.apart ..).trans (Function.update_self ..))
    L.compilesLib

/-- The functions of the host belong to the first side. -/
theorem hosted_first : L.host.From (L.sides base base').lib := by
  intro x f hf
  exact (L.hosted x f hf).update (L.predates x f hf f f.self_mem_family) _

/-- With those of the library they belong to the second side. -/
theorem hosted_second : (L.host.addProgram L.lib).From (L.sides base base').lib' := by
  refine Host.From.addProgram (fun x f hf => ?_) (L.program_first base base')
  exact ((L.hosted x f hf).update (L.predatesFirst x f hf f f.self_mem_family) _).update
    (L.predatesSecond x f hf f f.self_mem_family) _

/-- The numbers of the functions of the joined program. -/
theorem known_of_mem {g : Function} (hg : g ∈ L.joined.main.family) :
    (L.sides base base').known g.id := by
  obtain ⟨-, next, hnumbered⟩ := family_of_compile L.compiles
  exact .inl (hnumbered.within g hg).1

theorem fair : (L.sides base base').Fair where
  injective := FunctionId.parted_injective L.apart
  equivariant := L.equivariant

/-! ## Functions -/

/-- A function of the host is the same on both sides. -/
theorem sameFunction_host {x : String} {f : Function} (hf : L.host.scripts[x]? = some f) :
    (L.sides base base').SameFunction f f := by
  refine ⟨f.shape_congr fun g hg => FunctionId.parted_other (L.predates x f hf g hg),
    fun g hg => ?_,
    L.hosted_first base base' x f hf, ?_⟩
  · exact .inr ⟨L.predatesFirst x f hf g hg, L.predatesSecond x f hf g hg⟩
  · exact ((L.hosted x f hf).update (L.predatesFirst x f hf f f.self_mem_family) _).update
      (L.predatesSecond x f hf f f.self_mem_family) _

theorem holds_functions : ∀ f ∈ L.functions, (L.sides base base').lib.Holds f := fun _ hf =>
  (Library.holds_main (L.program_unit base base')).literal (L.includes.declares.mem hf).1

/-- The functions that the joined program declares are those of the library. -/
theorem sameFunctions : List.Forall₂
    (L.sides base base').SameFunction L.functions L.lib.functions := by
  rw [List.forall₂_iff_get]
  have hlength := congrArg List.length L.includes.functions
  rw [List.length_map, List.length_map] at hlength
  refine ⟨hlength, fun i hi hi' => ?_⟩
  have hshape := congrArg (·[i]?) L.includes.functions
  simp only [List.getElem?_map, List.getElem?_eq_getElem hi, List.getElem?_eq_getElem hi',
    Option.map_some] at hshape
  have hmem : L.functions[i] ∈ L.functions := List.getElem_mem hi
  refine ⟨Option.some.inj hshape, fun g hg => L.known_of_mem base base' ?_,
    L.holds_functions base base' _ hmem,
    Library.holds_function (L.program_first base base') (List.getElem_mem hi')⟩
  rw [L.joined.main.family_eq]
  exact List.mem_cons_of_mem _ (Literal.family_subset_familyAll (L.includes.declares.mem hmem).1 hg)

/-- Behind the declarations the joined program goes on as the other. -/
theorem continues : (L.sides base base').Continues L.before.length L.joined.main L.rest.main := by
  refine ⟨L.includes.continues, L.includes.name, fun g hg => L.known_of_mem base base' ?_,
    Library.holds_main (L.program_unit base base'),
    Library.holds_main (L.program_second base base')⟩
  rw [L.joined.main.family_eq]
  exact List.mem_cons_of_mem _ hg

end Link

/-- Tables that get functions which are the same on both sides. -/
theorem Sides.rel_addNamed {S : Sides} {fs fs' : List Function}
    (hfs : List.Forall₂ S.SameFunction fs fs') {host host' : Host}
    (h : ∀ x : String, Option.Rel S.SameFunction host.scripts[x]? host'.scripts[x]?) (x : String) :
    Option.Rel S.SameFunction (fs.foldl Host.addNamed host).scripts[x]?
      (fs'.foldl Host.addNamed host').scripts[x]? := by
  induction hfs generalizing host host' with
  | nil => exact h x
  | @cons f f' fs fs' hf _ ih =>
    refine ih fun y => ?_
    rw [Host.addNamed, Host.addNamed, hf.name]
    cases f.name with
    | none => exact h y
    | some name =>
      show Option.Rel _ (host.scripts.insert name f)[y]? (host'.scripts.insert name f')[y]?
      rw [Std.TreeMap.getElem?_insert, Std.TreeMap.getElem?_insert]
      split
      · exact .some hf
      · exact h y

/-- The functions that are registered under a name do the same on both sides. -/
theorem Link.rel_scripts (L : Link) (base base' : Nat) (x : String) :
    Option.Rel (L.sides base base').SameFunction
      (L.functions.foldl Host.addNamed L.host).scripts[x]?
      (L.host.addProgram L.lib).scripts[x]? := by
  refine Sides.rel_addNamed (L.sameFunctions base base') (fun y => ?_) x
  cases hy : L.host.scripts[y]? with
  | none => exact .none
  | some f => exact .some (L.sameFunction_host base base' hy)

/-! ## Natives -/

/-- Machines that have bound the same natives, and nothing else, behind what was on their heaps at
first. -/
structure Sides.Begun (S : Sides) (bound : Nat) (m m' : Machine) : Prop where
  host : m.host = S.host
  host' : m'.host = S.host'
  heaps : S.SameHeap m.heap m'.heap
  size : m.heap.size = S.base + bound
  size' : m'.heap.size = S.base' + bound
  globals : ∀ x : String, Option.Rel (Value.Renumbered (S.SameObject m.heap m'.heap)) m.globals[x]?
    m'.globals[x]?

namespace Sides

variable {S : Sides} {m m' : Machine} {bound : Nat}

/-- One more native is bound on both sides. -/
theorem Begun.bind (h : S.Begun bound m m') {name : String} {n : Native}
    (hn : S.host.natives[name]? = some n) (hn' : S.host'.natives[name]? = some n) :
    S.Begun (bound + 1) (m.bind name (.native n)) (m'.bind name (.native n)) := by
  obtain ⟨hget, -, hx⟩ := Heap.native_spec h.heaps.known.canonical n
  obtain ⟨hget', -, hx'⟩ := Heap.native_spec h.heaps.known'.canonical n
  have hnew : S.SameObject (m.heap.native n).2 (m'.heap.native n).2 m.heap.nextRef.index
    m'.heap.nextRef.index := by
    have hindex : m.heap.nextRef.index = S.base + bound := h.size
    have hindex' : m'.heap.nextRef.index = S.base' + bound := h.size'
    rw [hindex, hindex']
    refine .native (n := n) ?_ ?_
    · rw [← hindex]
      exact hget
    · rw [← hindex']
      exact hget'
  have hheaps : S.SameHeap (m.heap.native n).2 (m'.heap.native n).2 :=
    ⟨h.heaps.known.native hn, h.heaps.known'.native hn'⟩
  refine ⟨h.host, h.host', hheaps, ?_, ?_, fun x => ?_⟩
  · show (m.heap.objects.push _).size = _
    rw [Array.size_push]
    exact congrArg (· + 1) h.size
  · show (m'.heap.objects.push _).size = _
    rw [Array.size_push]
    exact congrArg (· + 1) h.size'
  · show Option.Rel (Value.Renumbered (S.SameObject (m.heap.native n).2 (m'.heap.native n).2))
      (m.globals.insert name (.object m.heap.nextRef))[x]?
      (m'.globals.insert name (.object m'.heap.nextRef))[x]?
    rw [Std.TreeMap.getElem?_insert, Std.TreeMap.getElem?_insert]
    split
    · exact .some (.object hnew)
    · exact (grows hx hx' hheaps).rel (h.globals x)

/-- The natives of two hosts that have the same. -/
theorem Begun.natives (h : S.Begun 0 m m') (hsame : S.host'.natives = S.host.natives) :
    ∃ bound, S.Begun bound (S.host.natives.foldl (fun k name n => k.bind name (.native n)) m)
      (S.host'.natives.foldl (fun k name n => k.bind name (.native n)) m') := by
  rw [hsame]
  refine foldl_table_rel (fun k k' => ∃ bound, S.Begun bound k k') _ ⟨0, h⟩ ?_
  rintro name n hn k k' ⟨bound, hk⟩
  exact ⟨bound + 1, hk.bind hn (by rw [hsame]; exact hn)⟩

/-- Over the same natives, globals for functions that are the same are the same. -/
theorem Begun.globals_of_offers (h : S.Begun bound m m')
    {table table' : Std.TreeMap String Function} {k k' : Machine}
    (hk : m.Offers S.lib table k) (hk' : m'.Offers S.lib' table' k')
    (htables : ∀ x : String, Option.Rel S.SameFunction table[x]? table'[x]?) (x : String) :
    Option.Rel (Value.Renumbered (S.SameObject k.heap k'.heap)) k.globals[x]? k'.globals[x]? := by
  have hheaps : S.SameHeap k.heap k'.heap :=
    ⟨h.host ▸ hk.host ▸ hk.known, h.host' ▸ hk'.host ▸ hk'.known⟩
  have hx := htables x
  revert hx
  cases htable : table[x]? <;> cases htable' : table'[x]? <;> intro hx <;> cases hx
  · -- a native, or nothing
    rw [hk.others x htable, hk'.others x htable']
    exact (grows hk.grown hk'.grown hheaps).rel (h.globals x)
  · next hf =>
    obtain ⟨ref, hglobal, hget⟩ := hk.functions x _ htable
    obtain ⟨ref', hglobal', hget'⟩ := hk'.functions x _ htable'
    rw [hglobal, hglobal']
    exact .some (.object (.function hget hget' hf))

end Sides

/-! ## Loading -/

namespace Machine

variable {lib : Library} {host : Host} {m b : Machine} {p : Program}

/-- What a machine has on its heap when only the texts of a program are there. -/
theorem texts_spec (lib : Library) (texts : List String) (m : Machine) :
    (texts.foldl intern m.reset).heap.Known lib m.host ∧
    (texts.foldl intern m.reset).host = m.host ∧
      ∀ x : String, (texts.foldl intern m.reset).globals[x]? = none := by
  obtain ⟨hstocked, hhost⟩ := stocked_foldl_intern texts (stocked_reset lib m)
  refine ⟨hhost ▸ hstocked.heap, hhost, fun x => ?_⟩
  have hglobals : (texts.foldl intern m.reset).globals = {} :=
    List.foldlRecOn (motive := fun k : Machine => k.globals = {}) texts intern
      (b := m.reset) rfl fun _ hk _ _ => hk
  rw [hglobals]
  exact Std.TreeMap.getElem?_emptyc

/-- A program is loaded and begins to run: over the natives of the host, the globals are its
functions. -/
theorem offers_load (hhost : m.host = host)
    (hb : b = host.natives.foldl (fun k name n => k.bind name (.native n))
      (p.strings.foldl intern m.reset))
    (hbhost : b.host = host) (hknown : b.heap.Known lib host) (hfrom : host.From lib)
    (hmain : lib.Holds p.main) :
    ∃ (k : Machine) (ref : Ref), b.Offers lib host.scripts k ∧ k.sink = m.sink ∧
    k.status = .running ∧
      { m.load p with status := .running } = k.on [⟨p.main, 0, 0⟩] [.object ref] := by
  obtain ⟨c, hc⟩ : ∃ c, c = host.scripts.foldl (fun k name f => k.bind name (.function f)) b :=
    ⟨_, rfl⟩
  have hoffers : b.Offers lib host.scripts c := by
    rw [hc]
    exact offers_scripts host.scripts hfrom (hbhost ▸ hknown)
  have hbind : (p.strings.foldl intern m.reset).bindHost = c := by
    rw [bindHost, (texts_spec lib p.strings m).2.1, hhost, ← hb]
    rw [hbhost, hc]
  have hload : m.load p = { c with
      heap := (c.heap.function p.main).2
      stack := #[.object (c.heap.function p.main).1]
      frames := [⟨p.main, 0, 0⟩]
      status := .ready } := by rw [← hbind]; rfl
  have hsink := congrArg Prod.snd (m.surroundings_load p)
  rw [hload] at hsink ⊢
  refine ⟨{ c with heap := (c.heap.function p.main).2, status := .running },
    (c.heap.function p.main).1, ?_, hsink, rfl, rfl⟩
  exact hoffers.later (hoffers.known.function hmain).1
    (Heap.function_spec hoffers.known.canonical p.main).2.2 rfl rfl

end Machine

namespace Link

variable (L : Link) {m m' : Machine}

/-- When the joined program has declared its first functions, it is where the other begins. -/
theorem running (hm : m.host = L.host) (hm' : m'.host = L.host.addProgram L.lib)
    (hsink : m'.sink = m.sink) :
    ∃ (S : Sides) (k : Machine), S.Fair ∧ S.Running k { m'.load L.rest with status := .running } ∧
    k.status = .running ∧
      ∀ n text, ({ m.load L.joined with status := .running } : Machine).interpret
      (n + L.before.length) text =
        k.interpret n text := by
  -- the texts of the programs, and the natives
  obtain ⟨t, ht⟩ : ∃ t, t = L.joined.strings.foldl Machine.intern m.reset := ⟨_, rfl⟩
  obtain ⟨t', ht'⟩ : ∃ t', t' = L.rest.strings.foldl Machine.intern m'.reset := ⟨_, rfl⟩
  let S := L.sides t.heap.size t'.heap.size
  have hbegun : S.Begun 0 t t' := by
    obtain ⟨hknown, hhost, hglobals⟩ := Machine.texts_spec S.lib L.joined.strings m
    obtain ⟨hknown', hhost', hglobals'⟩ := Machine.texts_spec S.lib' L.rest.strings m'
    rw [← ht, hm] at hknown hhost
    rw [← ht', hm'] at hknown' hhost'
    refine ⟨hhost, hhost', ⟨hknown, hknown'⟩, rfl, rfl, fun x => ?_⟩
    rw [ht, ht', hglobals, hglobals']
    exact .none
  obtain ⟨bound, hbound⟩ := hbegun.natives (Host.addProgram_natives ..)
  obtain ⟨b, hb⟩ : ∃ b, b = S.host.natives.foldl (fun k name n => k.bind name (.native n)) t :=
    ⟨_, rfl⟩
  obtain ⟨b', hb'⟩ : ∃ b', b' = S.host'.natives.foldl (fun k name n => k.bind name (.native n))
    t' := ⟨_, rfl⟩
  rw [← hb, ← hb'] at hbound
  -- the functions of the hosts
  have hmain := Library.holds_main (L.program_unit t.heap.size t'.heap.size)
  obtain ⟨k, ref, hk, hksink, hstatus, hload⟩ :=
    Machine.offers_load hm (ht ▸ hb) hbound.host hbound.heaps.known
    (L.hosted_first _ _) hmain
  obtain ⟨k', ref', hk', hksink', hstatus', hload'⟩ :=
    Machine.offers_load hm' (ht' ▸ hb') hbound.host'
    hbound.heaps.known' (L.hosted_second _ _)
    (Library.holds_main (L.program_second t.heap.size t'.heap.size))
  -- the declarations
  have hbefore : Occurs L.joined.main.chunk.code.toList 0 L.before := L.includes.begins
  obtain ⟨j, hj, hjsink, hjstatus, hruns⟩ :=
    L.includes.declares.runs hbefore (L.holds_functions _ _) hk []
    [.object ref] Nat.zero_lt_one (show 1 < stackLimit by decide)
  rw [← hload, Nat.zero_add] at hruns
  rw [hload']
  refine ⟨S, j.on [⟨L.joined.main, L.before.length, 0⟩] [.object ref], L.fair _ _, ?_,
    hjstatus.trans hstatus, hruns⟩
  -- the first machine has come from one with a program of its library
  obtain ⟨hsound, -, -⟩ := Machine.sound_load (m := m)
    (hm ▸ L.hosted_first t.heap.size t'.heap.size)
    (L.program_unit t.heap.size t'.heap.size)
  have haligned := hsound.aligned (List.cons_ne_nil _ _)
  have hleads := Machine.Aligned.interpret (m := { m.load L.joined with status := .running })
    ⟨haligned.heap, haligned.windows, haligned.own⟩ (List.cons_ne_nil _ _) hsound.limit
    (0 + L.before.length) ""
  rw [hruns] at hleads
  have hheaps : S.SameHeap j.heap k'.heap :=
    ⟨hbound.host ▸ hj.host ▸ hj.known, hbound.host' ▸ hk'.host ▸ hk'.known⟩
  have hglobals := hbound.globals_of_offers hj hk' (L.rel_scripts _ _)
  have hgoing : S.correspondence.Going ⟨L.joined.main, L.before.length, 0⟩ ⟨L.rest.main, 0, 0⟩ :=
    ⟨⟨L.before.length, (Nat.zero_add _).symm, L.continues _ _⟩, rfl⟩
  refine ⟨hleads.sound.aligned (List.cons_ne_nil _ _), List.cons_ne_nil _ _,
    hleads.sound.limit, _, _,
    .cons hgoing .nil, rfl, rfl, hheaps, ⟨rfl, fun i hi => ?_⟩, hglobals, ?_, rfl, rfl⟩
  · -- nothing is on the stack but the main functions
    obtain ⟨i, rfl⟩ := Nat.exists_eq_add_of_le' hi
    exact .none
  · exact hksink'.trans (hsink.trans (hjsink.trans hksink).symm)

end Link

/-- A run that has got somewhere without an end has not ended before. -/
theorem Machine.interpret_unfinished {m : Machine} {n c : Nat} {text : String}
    (h : (m.interpret (n + c) text).outcome = .unfinished) :
    (m.interpret n text).outcome = .unfinished := by
  induction n generalizing m text with
  | zero => rfl
  | succ n ih =>
    rw [Nat.add_right_comm, interpret] at h
    rw [interpret]
    cases hstep : Exec.step.run m with
    | error e k =>
      rw [hstep] at h
      cases h
    | ok signal k =>
      rw [hstep] at h
      cases signal with
      | next | printed => exact ih h
      | exit => cases h

/-- Linking a library is including it, for natives to which the numbers of objects do not matter.
Let a source of functions compile against a host with such natives, let another source compile
against the host with these functions, and let the first source in front of the second, on lines of
its own, compile against the host alone.  Then the joined program on a machine for the host, and the
second program on a machine for the host with the functions, come to the same however often they are
resumed: the calls end in the same way and print the same text, and a call that fails does so with
the same fault, while functions with the same names are active.  The budget of its first call has to
be greater for the joined program, by two instructions for each function that it declares; with less
it does not get to an end. -/
theorem including_eq_linking {known : Library} {host : Host} (hhost : host.From known)
    (hnatives : host.Equivariant) {unit first second : Nat} (hunit : host.Predates unit)
    (hfirst : host.Predates first) (hsecond : host.Predates second) (hne : first ≠ second)
    {source more : String} (honly : FunctionsOnly source)
    {lib q p : Program} (hlib : compile first host.names source = .ok lib)
    (hq : compile second (host.addProgram lib).names more = .ok q)
    (hp : compile unit host.names (source ++ "\n" ++ more) = .ok p) {m m' : Machine}
    (hm : m.host = host) (hm' : m'.host = host.addProgram lib) (hsink : m'.sink = m.sink) :
    (∀ n ns, (m.load p).sessions ((n + 2 * lib.functions.length) :: ns) =
      (m'.load q).sessions (n :: ns)) ∧
      ∀ n ≤ 2 * lib.functions.length, ((m.load p).resume n).outcome = .unfinished := by
  obtain ⟨k, fs, before, hincludes⟩ := includes_of_compile honly hp hlib hq
  let L : Link := ⟨known, host, unit, first, second, source, more, p, lib, q, k, fs, before, hhost,
    hnatives, hunit, hfirst, hsecond, hne, hp, hlib, hq, hincludes⟩
  -- the joined script first makes the functions of the library, and is then at the same place
  obtain ⟨S, j, fair, hrunning, hstatus, hruns⟩ := L.running hm hm' hsink
  -- two instructions for each of them
  have hlength : before.length = 2 * lib.functions.length := by
    have hfs := congrArg List.length hincludes.functions
    rw [List.length_map, List.length_map] at hfs
    rw [hincludes.declares.length_eq, hfs]
  have hresume {k : Machine} {r : Program} (n : Nat) :
      (k.load r).resume n = ({ k.load r with status := .running } : Machine).interpret n "" := rfl
  rw [← hlength]
  constructor
  · intro n ns
    have hrun := hrunning.interpret fair hstatus rfl n ""
    rw [Machine.sessions, Machine.sessions, hresume, hresume, hruns n "", ← hrun.ending,
      ← hrun.text, hrun.even.sessions fair]
  · intro n hn
    obtain ⟨c, hc⟩ := Nat.exists_eq_add_of_le hn
    rw [hresume]
    refine Machine.interpret_unfinished (c := c) ?_
    rw [← hc, ← Nat.zero_add before.length]
    exact congrArg Run.outcome (hruns 0 "")

/-! ## A native that tells objects by their numbers -/

/-- A host without functions of its own is older than every compilation. -/
theorem Host.predates_of_scripts_eq {host : Host} (h : host.scripts = {}) (unit : Nat) :
    host.Predates unit := by
  intro name f hf
  rw [h, Std.TreeMap.getElem?_emptyc] at hf
  cases hf

/-- The built-in natives, and the one that gives the number of its argument. -/
def Host.numbering : Host :=
  builtins.addNative .objectNumber

/-- A library with one function. -/
def oneFunction : String :=
  "fun f() \x7b \x7d"

/-- A script that asks for the number of a text. -/
def askingNumber : String :=
  "print number(\"x\");"

/-- The source has one declaration, of a function. -/
theorem functionsOnly_oneFunction : FunctionsOnly oneFunction := by
  have htokens : tokens oneFunction = [⟨.kwFun, "fun", 1⟩, ⟨.identifier, "f", 1⟩,
      ⟨.leftParen, "(", 1⟩, ⟨.rightParen, ")", 1⟩, ⟨.leftBrace, "\x7b", 1⟩,
      ⟨.rightBrace, "\x7d", 1⟩] ++ [.eof 1] := by decide +kernel
  have hfunction := @Spells.function ⟨.kwFun, "fun", 1⟩ ⟨.identifier, "f", 1⟩ ⟨.leftParen, "(", 1⟩
    ⟨.rightParen, ")", 1⟩ ⟨.leftBrace, "\x7b", 1⟩ ⟨.rightBrace, "\x7d", 1⟩ []
    [] 1 rfl rfl rfl rfl rfl .none rfl
  refine ⟨⟨_, 1⟩, ⟨_, .eof 1, htokens, rfl, rfl, .more hfunction .none⟩, fun c hc => ?_⟩
  obtain rfl := List.mem_singleton.mp hc
  rfl

/-- Including is not linking for every native.  The joined program has the name of the function of
the library among its texts, so that its other texts come later on the heap than those of the script
on its own; a native that gives the number of its argument, and is a function of it, tells the two
runs apart. -/
theorem including_ne_linking_numbering :
    Host.numbering.From (fun _ => ([], "")) ∧ (∀ unit, Host.numbering.Predates unit) ∧
      FunctionsOnly oneFunction ∧ ∃ lib q p : Program,
        compile 1 Host.numbering.names oneFunction = .ok lib ∧
        compile 2 (Host.numbering.addProgram lib).names askingNumber = .ok q ∧
        compile 0 Host.numbering.names (oneFunction ++ "\n" ++ askingNumber) = .ok p ∧
        ((Machine.new (Host.numbering.addProgram lib)).load q).sessions [100] =
          [(.exited .finished, "1\n")] ∧
        ((Machine.new .numbering).load p).sessions [102] = [(.exited .finished, "2\n")] := by
  have hfrom : Host.numbering.From (fun _ => ([], "")) := (Host.from_builtins _).addNative _
  refine ⟨hfrom, Host.predates_of_scripts_eq rfl, functionsOnly_oneFunction, ?_⟩
  have hlinked : ((compile 1 Host.numbering.names oneFunction).toOption.bind fun lib =>
      (compile 2 (Host.numbering.addProgram lib).names askingNumber).toOption.map fun q =>
        ((Machine.new (Host.numbering.addProgram lib)).load q).sessions [100]) =
      some [(.exited .finished, "1\n")] := by decide +kernel
  have hjoined :
    ((compile 0 Host.numbering.names (oneFunction ++ "\n" ++ askingNumber)).toOption.map
      fun p => ((Machine.new .numbering).load p).sessions [102]) =
      some [(.exited .finished, "2\n")] := by decide +kernel
  obtain ⟨lib, hlib, hrest⟩ := Option.bind_eq_some_iff.mp hlinked
  obtain ⟨q, hq, hshown⟩ := Option.map_eq_some_iff.mp hrest
  obtain ⟨p, hp, hshown'⟩ := Option.map_eq_some_iff.mp hjoined
  rw [toOption_eq_some_iff] at hlib hq hp
  exact ⟨lib, q, p, hlib, hq, hp, hshown, hshown'⟩

/-! ## A library with a function that pauses -/

/-- A host without natives has none to which numbers matter. -/
theorem Host.equivariant_empty : empty.Equivariant := by
  intro name n h
  simp [empty] at h

/-- A further native that does not look at the numbers of objects. -/
theorem Host.Equivariant.addNative {host : Host} (h : host.Equivariant) {n : Native}
    (hn : n.Equivariant) : (host.addNative n).Equivariant := by
  intro x k hk
  simp only [Host.addNative, Std.TreeMap.getElem?_insert] at hk
  split at hk
  · obtain rfl := Option.some.inj hk
    exact hn
  · exact h x k hk

/-- The numbers of objects do not matter to the natives that every host starts with. -/
theorem Host.equivariant_builtins : builtins.Equivariant := by
  have hall (n : Native) (hn : n ∈ Builtin.all 0) : n.Equivariant :=
    Native.equivariant_of_plain (Builtin.plainResult_of_mem hn) fun π vs =>
      Builtin.call_renumbered hn vs
  exact List.foldlRecOn (motive := Host.Equivariant) _ addNative equivariant_empty fun _ h n hn =>
    h.addNative (hall n hn)

/-- A library with a function that pauses, and then gives back the negative of what it gets. -/
def pausingLibrary : String :=
  "fun wait(n) \x7b yield; return -n; \x7d"

/-- A script that calls the function with a number, and with nothing that could be a number. -/
def pausingCalls : String :=
  "print wait(2); wait(nil);"

/-- The source has function declarations only. -/
theorem functionsOnly_pausingLibrary : FunctionsOnly pausingLibrary := by
  have htokens : tokens pausingLibrary =
    [⟨.kwFun, "fun", 1⟩, ⟨.identifier, "wait", 1⟩, ⟨.leftParen, "(", 1⟩,
    ⟨.identifier, "n", 1⟩, ⟨.rightParen, ")", 1⟩, ⟨.leftBrace, "\x7b", 1⟩, ⟨.kwYield, "yield", 1⟩,
    ⟨.semicolon, ";", 1⟩,
    ⟨.kwReturn, "return", 1⟩, ⟨.minus, "-", 1⟩, ⟨.identifier, "n", 1⟩, ⟨.semicolon, ";", 1⟩,
    ⟨.rightBrace, "\x7d", 1⟩, ⟨.eof, "", 1⟩] := by decide +kernel
  have hn : Derives [⟨.identifier, "n", 1⟩] (.expr .unary (.name "n" 1)) :=
    .stronger (.stronger (.name rfl))
  have hvalue : Derives [⟨.minus, "-", 1⟩, ⟨.identifier, "n", 1⟩]
    (.expr .assignment (.unary .negate (.name "n" 1))) :=
    .stronger
      (.stronger (.stronger (.stronger (.stronger (.stronger (.stronger (.unary .negate hn)))))))
  have hyield : Spells [⟨.kwYield, "yield", 1⟩, ⟨.semicolon, ";", 1⟩] (.statement (.yield 1)) :=
    .yield rfl rfl
  have hreturn : Spells [⟨.kwReturn, "return", 1⟩, ⟨.minus, "-", 1⟩, ⟨.identifier, "n", 1⟩,
    ⟨.semicolon, ";", 1⟩]
      (.statement (.ret (some (.unary .negate (.name "n" 1))) 1)) := .retWith rfl hvalue rfl
  have hfunction : Spells (⟨.kwFun, "fun", 1⟩ :: ⟨.identifier, "wait", 1⟩ :: ⟨.leftParen, "(", 1⟩ ::
      [⟨.identifier, "n", 1⟩] ++ ⟨.rightParen, ")", 1⟩ :: ⟨.leftBrace, "\x7b", 1⟩ ::
      ([⟨.kwYield, "yield", 1⟩, ⟨.semicolon, ";", 1⟩] ++
        ([⟨.kwReturn, "return", 1⟩, ⟨.minus, "-", 1⟩,
        ⟨.identifier, "n", 1⟩, ⟨.semicolon, ";", 1⟩] ++ [])) ++ [⟨.rightBrace, "\x7d", 1⟩])
      (.declaration (.function 1 "wait" ["n"]
        [.yield 1, .ret (some (.unary .negate (.name "n" 1))) 1] 1)) :=
    .functionWith 1 rfl rfl rfl (.last rfl) rfl rfl
      (.more (.ofStatement hyield) (.more (.ofStatement hreturn) .none)) rfl
  refine ⟨⟨_, 1⟩, ⟨_, ⟨.eof, "", 1⟩, htokens.trans rfl, rfl, rfl, .more hfunction .none⟩,
    fun c hc => ?_⟩
  obtain rfl := List.mem_singleton.mp hc
  rfl

/-- The sessions of a script that is linked with the library. -/
def pausingSessions (lib q : Program) : List (Ending × String) :=
  ((Machine.new (Host.builtins.addProgram lib)).load q).sessions [100, 100, 100]

/-- The joined program pauses twice and fails in the midst of the second call, as the linked one
does. -/
theorem including_eq_linking_pausing :
    ∃ p, compile 0 Host.builtins.names (pausingLibrary ++ "\n" ++ pausingCalls) = .ok p ∧
      ((Machine.new .builtins).load p).sessions
      [102, 100, 100] = [(.exited .yielded, ""), (.exited .yielded, "-2\n"),
        (.faulted (.operand (.unaryMismatch .negate .nil)) [some "wait", none], "")] := by
  have hscripts (unit : Nat) : Host.builtins.Predates unit := Host.predates_of_scripts_eq rfl unit
  have hjoined : (compile 0 Host.builtins.names (pausingLibrary ++ "\n" ++ pausingCalls)).isOk =
    true := by
    decide +kernel
  have hlinked : ((compile 1 Host.builtins.names pausingLibrary).toOption.bind fun lib =>
      (compile 2 (Host.builtins.addProgram lib).names pausingCalls).toOption.map fun q =>
        (lib.functions.length, pausingSessions lib q)) =
          some (1, [(.exited .yielded, ""), (.exited .yielded, "-2\n"),
        (.faulted (.operand (.unaryMismatch .negate .nil)) [some "wait", none], "")]) := by
          decide +kernel
  obtain ⟨p, hp⟩ := exists_of_isOk hjoined
  obtain ⟨lib, hlib, hrest⟩ := Option.bind_eq_some_iff.mp hlinked
  obtain ⟨q, hq, hsessions⟩ := Option.map_eq_some_iff.mp hrest
  rw [toOption_eq_some_iff] at hlib hq
  obtain ⟨hone, hall⟩ := Prod.mk.inj hsessions
  refine ⟨p, hp, ?_⟩
  have hhost (host : Host) : (Machine.new host).host = host := rfl
  obtain ⟨hsame, -⟩ := including_eq_linking (Host.from_builtins fun _ => ([], ""))
    Host.equivariant_builtins (hscripts 0) (hscripts 1) (hscripts 2) (by decide)
    functionsOnly_pausingLibrary hlib hq hp (hhost .builtins)
    (hhost (Host.builtins.addProgram lib)) rfl
  have hsessions := hsame 100 [100, 100]
  rw [hone] at hsessions
  exact hsessions.trans hall

end EntityScript
