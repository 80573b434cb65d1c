/-
# Functions that globals hold

The functions of a table are globals of a machine if every name of the table is that of a global
that holds its function; the other globals are those that were there before (`Machine.Offers`).
There are two ways to get there.  The functions of a host are bound while a program is loaded
(`Machine.offers_scripts`), and a program that begins with declarations makes its functions globals
itself, in two steps for each of them (`Declares.runs`).
-/
import EntityScript.Proofs.Machine.Alignment
import EntityScript.Proofs.Machine.Lockstep
import EntityScript.Proofs.Script.Declaring

namespace EntityScript

/-- The globals of the second machine are the functions of a table and, apart from them, the globals
of the first; its heap has grown from that of the first. -/
structure Machine.Offers (lib : Library) (start : Machine) (table : Std.TreeMap String Function)
    (m : Machine) :
    Prop where
  known : m.heap.Known lib m.host
  host : m.host = start.host
  grown : start.heap.Extends m.heap
  functions : ∀ (x : String) (f : Function), table[x]? = some f →
    ∃ ref, m.globals[x]? = some (.object ref) ∧ m.heap.get? ref = some (.function f)
  others : ∀ x : String, table[x]? = none → m.globals[x]? = start.globals[x]?

namespace Machine

variable {lib : Library} {start m k : Machine} {table : Std.TreeMap String Function}

theorem Offers.nothing (h : m.heap.Known lib m.host) : m.Offers lib ∅ m :=
  ⟨h, rfl, .refl _, fun x f hf => by simp at hf, fun _ _ => rfl⟩

/-- A machine with the same globals, and with more on its heap. -/
theorem Offers.later (h : start.Offers lib table m) (hknown : k.heap.Known lib k.host)
    (hx : m.heap.Extends k.heap) (hglobals : k.globals = m.globals) (hhost : k.host = m.host) :
    start.Offers lib table k := by
  refine ⟨hknown, hhost.trans h.host, h.grown.trans hx, fun x f hf => ?_, fun x hnone => ?_⟩
  · obtain ⟨ref, hglobal, hget⟩ := h.functions x f hf
    exact ⟨ref, by rw [hglobals, hglobal], hx _ _ hget⟩
  · rw [hglobals]
    exact h.others x hnone

/-- One more function gets a name. -/
theorem Offers.insert (h : start.Offers lib table m) {f : Function} (hf : lib.Holds f)
    (name : String) :
    start.Offers lib (table.insert name f) (m.bind name (.function f)) := by
  obtain ⟨hknown, hget⟩ := h.known.function hf
  have hx := (Heap.function_spec h.known.canonical f).2.2
  refine ⟨hknown, h.host, h.grown.trans hx, fun x g hg => ?_, fun x hnone => ?_⟩
  · show ∃ ref, (m.globals.insert name (.object (m.heap.function f).1))[x]? = _ ∧
      (m.heap.function f).2.get? ref = _
    rw [Std.TreeMap.getElem?_insert] at hg ⊢
    split at hg
    · next heq =>
      obtain rfl := Option.some.inj hg
      rw [if_pos heq]
      exact ⟨_, rfl, hget⟩
    · next hne =>
      obtain ⟨ref, hglobal, hold⟩ := h.functions x g hg
      rw [if_neg hne]
      exact ⟨ref, hglobal, hx _ _ hold⟩
  · show (m.globals.insert name (.object (m.heap.function f).1))[x]? = _
    rw [Std.TreeMap.getElem?_insert] at hnone ⊢
    split at hnone
    · cases hnone
    · next hne =>
      rw [if_neg hne]
      exact h.others x hnone

/-- A table with the same entries. -/
theorem Offers.withTable {table' : Std.TreeMap String Function} (h : start.Offers lib table m)
    (hsame : ∀ x : String, table'[x]? = table[x]?) : start.Offers lib table' m :=
  ⟨h.known, h.host, h.grown, fun x f hf => h.functions x f ((hsame x).symm.trans hf),
    fun x hx => h.others x ((hsame x).symm.trans hx)⟩

/-- The functions of a table are bound one after the other. -/
theorem offers_scripts (scripts : Std.TreeMap String Function)
    (hscripts : ∀ (name : String) (f : Function), scripts[name]? = some f → lib.Holds f)
    (h : m.heap.Known lib m.host) :
    m.Offers lib scripts (scripts.foldl (fun k name f => k.bind name (.function f)) m) := by
  have hall (entries : List (String × Function)) (hentries : ∀ e ∈ entries, lib.Holds e.2)
      {k : Machine} {table : Std.TreeMap String Function} (hk : m.Offers lib table k) :
      m.Offers lib (table.insertMany entries)
        (entries.foldl (fun k e => k.bind e.1 (.function e.2)) k) := by
    induction entries generalizing k table with
    | nil =>
      rw [Std.TreeMap.insertMany_nil]
      exact hk
    | cons e entries ih =>
      rw [Std.TreeMap.insertMany_cons, List.foldl_cons]
      exact ih (fun e he => hentries e (List.mem_cons_of_mem _ he))
        (hk.insert (hentries e List.mem_cons_self) e.1)
  rw [Std.TreeMap.foldl_eq_foldl_toList]
  refine (hall scripts.toList (fun e he => ?_) (.nothing h)).withTable fun x => ?_
  · exact hscripts e.1 e.2 (Std.TreeMap.mem_toList_iff_getElem?_eq_some.mp he)
  · cases hx : scripts[x]? with
    | some f =>
      have hmem : (x, f) ∈ scripts.toList := Std.TreeMap.mem_toList_iff_getElem?_eq_some.mpr hx
      exact (Std.TreeMap.getElem?_insertMany_list_of_mem Std.ReflCmp.compare_self
        Std.TreeMap.distinct_keys_toList hmem).symm
    | none =>
      have hnot : (scripts.toList.map Prod.fst).contains x = false := by
        rw [Std.TreeMap.map_fst_toList_eq_keys, List.contains_eq_mem, decide_eq_false_iff_not,
          Std.TreeMap.mem_keys]
        rw [Std.TreeMap.mem_iff_isSome_getElem?, hx]
        exact Bool.false_ne_true
      rw [Std.TreeMap.getElem?_insertMany_list_of_contains_eq_false hnot,
        Std.TreeMap.getElem?_emptyc]

end Machine

/-! ## Declarations -/

namespace Exec

variable {f g : Function} {i base index line : Nat} {rest : List Frame} {s : List Value} {v : Value}
  {x : String} {m : Machine}

/-- A step that makes a function. -/
theorem run_makes (hp : f.chunk.code.toList[i]? = some ⟨.literal index, line⟩)
    (hg : f.chunk.literals[index]? = some (.function g)) (hs : s.length < stackLimit) :
    step.run (m.on (⟨f, i, base⟩ :: rest) s) = .ok .next
      ({ m with heap := (m.heap.function g).2 }.on (⟨f, i + 1, base⟩ :: rest)
        (s ++ [Value.object (m.heap.function g).1])) := by
  have hliteral : (literal index).run (m.on (⟨f, i + 1, base⟩ :: rest) s) =
      .ok (.function g) (m.on (⟨f, i + 1, base⟩ :: rest) s) := run_literal hg
  rw [run_step (Machine.on_frames ..) (Chunk.instruction?_of_getElem? hp)]
  show (execute (.literal index)).run (m.on (⟨f, i + 1, base⟩ :: rest) s) = _
  rw [execute, EStateM.run_bind, hliteral]
  dsimp only
  rw [EStateM.run_bind, run_literalValue]
  dsimp only
  rw [EStateM.run_bind, run_push hs]
  rfl

/-- A step that gives a name to a value. -/
theorem run_defines (hp : f.chunk.code.toList[i]? = some ⟨.defineGlobal index, line⟩)
    (hx : f.chunk.literals[index]? = some (.string x)) (hbase : base < s.length) :
    step.run (m.on (⟨f, i, base⟩ :: rest) (s ++ [v])) = .ok .next
      ({ m with globals := m.globals.insert x v }.on (⟨f, i + 1, base⟩ :: rest) s) := by
  have hname : (nameAt index).run (m.on (⟨f, i + 1, base⟩ :: rest) (s ++ [v])) =
      .ok x (m.on (⟨f, i + 1, base⟩ :: rest) (s ++ [v])) := run_nameAt hx
  have hpop : pop.run (m.on (⟨f, i + 1, base⟩ :: rest) (s ++ [v])) =
    .ok v (m.on (⟨f, i + 1, base⟩ :: rest) s) :=
    run_pop hbase
  rw [run_step (Machine.on_frames ..) (Chunk.instruction?_of_getElem? hp)]
  show (execute (.defineGlobal index)).run (m.on (⟨f, i + 1, base⟩ :: rest) (s ++ [v])) = _
  rw [execute, EStateM.run_bind, hname]
  dsimp only
  rw [EStateM.run_bind, hpop]
  rfl

end Exec

/-- A function that begins with declarations, on a machine with the functions of a host: it makes
globals of its own functions, as if the host had them, too. -/
theorem Declares.runs {lib : Library} {start : Machine} {main : Function} {fs : List Function}
    {code : List Placed} (h : Declares main.chunk.literals fs code) {i base : Nat}
    (hcode : Occurs main.chunk.code.toList i code)
    (hfs : ∀ f ∈ fs, lib.Holds f) {host : Host} {m : Machine} (hm : start.Offers lib host.scripts m)
    (rest : List Frame) (s : List Value) (hbase : base < s.length) (hs : s.length < stackLimit) :
    ∃ k : Machine, start.Offers lib (fs.foldl Host.addNamed host).scripts k ∧ k.sink = m.sink ∧
    k.status = m.status ∧
      ∀ n text, (m.on (⟨main, i, base⟩ :: rest) s).interpret (n + code.length) text =
        (k.on (⟨main, i + code.length, base⟩ :: rest) s).interpret n text := by
  induction h generalizing i host m with
  | nil => exact ⟨m, hm, rfl, rfl, fun _ _ => rfl⟩
  | @cons f fs x code index place line hf hname hx _ ih =>
    have hmakes : main.chunk.code.toList[i]? = some ⟨.literal index, line⟩ :=
      hcode.getElem? (k := 0) (Nat.zero_lt_succ _)
    have hdefines : main.chunk.code.toList[i + 1]? = some ⟨.defineGlobal place, line⟩ :=
      hcode.tail.getElem? (k := 0) (Nat.zero_lt_succ _)
    have hadded : (host.addNamed f).scripts = host.scripts.insert x f := by
      rw [Host.addNamed, hname]
      rfl
    have hnext := hm.insert (hfs f List.mem_cons_self) x
    rw [← hadded] at hnext
    obtain ⟨k, hk, hsink, hstatus, hruns⟩ :=
      ih hcode.tail.tail (fun g hg => hfs g (List.mem_cons_of_mem _ hg)) hnext
    refine ⟨k, hk, hsink, hstatus, fun n text => ?_⟩
    rw [List.length_cons, List.length_cons,
      show n + (code.length + 1 + 1) = n + code.length + 1 + 1 by omega,
      Machine.interpret_next _ _ (Exec.run_makes hmakes hf hs),
      Machine.interpret_next _ _ (Exec.run_defines hdefines hx hbase),
      show i + (code.length + 1 + 1) = i + 1 + 1 + code.length by omega]
    exact hruns n text

end EntityScript
