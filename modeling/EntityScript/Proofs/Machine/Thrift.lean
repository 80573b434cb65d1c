/-
# Only joining strings makes a heap grow

A machine finds the texts of its program on the heap when the program has been loaded.  From then on
it asks for texts and functions among the literals of functions that it executes, and for texts that
it makes of two strings.  The former come from the program and from the functions of the host,
however often they are asked for; so all that a long run can add to the heap are texts of the second
kind (`heap_grows_by_joining`).

The count goes by the two tables of the heap, in which every text and every function is a key at
most once (`Heap.Counted`).
-/
import EntityScript.Host.Builtins
import EntityScript.Proofs.Compile.Acceptance
import EntityScript.Proofs.Machine.Effect
import EntityScript.Proofs.Machine.Requests
import EntityScript.Proofs.Script.Gathering
import Mathlib.Data.Finset.Card

namespace EntityScript

/-- The functions that a function makes: those among its literals, and among theirs. -/
def Function.inner (f : Function) : List Function :=
  Literal.familyAll f.chunk.literals

/-- The compiled functions of a host. -/
def Host.functions (host : Host) : List Function :=
  host.scripts.toList.map (·.2)

namespace Machine

/-- The texts that are made of two strings, one after the other, by the instructions of a budget. -/
def joinedBy : Nat → Machine → List String
  | 0, _ => []
  | n + 1, m =>
    m.joins?.toList ++
      match Exec.step.run m with
      | .ok .next k => joinedBy n k
      | .ok (.printed _) k => joinedBy n k
      | .ok (.exit _) _ => []
      | .error _ _ => []

/-- The texts that a call of `run` makes of two strings. -/
def runJoins (m : Machine) (budget : Nat) : List String :=
  match m.status with
  | .ready => joinedBy budget { m with status := .running }
  | _ => []

/-- The texts that a call of `resume` makes of two strings. -/
def resumeJoins (m : Machine) (budget : Nat) : List String :=
  match m.status with
  | .ready | .suspended => joinedBy budget { m with status := .running }
  | _ => []

/-- The machines that come out of one when it is run and resumed, and its output redirected in
between, each with the texts that have been made of two strings until then. -/
inductive Joined (m : Machine) : List String → Machine → Prop where
  | same : Joined m [] m
  | redirect {joined : List String} {k : Machine} (sink : Sink) : Joined m joined k →
      Joined m joined { k with sink := sink }
  | run {joined : List String} {k : Machine} (budget : Nat) : Joined m joined k →
      Joined m (joined ++ k.runJoins budget) (k.run budget).machine
  | resume {joined : List String} {k : Machine} (budget : Nat) : Joined m joined k →
      Joined m (joined ++ k.resumeJoins budget) (k.resume budget).machine

end Machine

/-! ## Counting objects -/

/-- A table has no more entries than there are different keys to choose from. -/
theorem size_le_card {α β : Type} [DecidableEq α] [Ord α] [Std.TransOrd α] [Std.LawfulEqOrd α]
    {t : Std.TreeMap α β} {l : List α} (h : ∀ a ∈ t, a ∈ l) : t.size ≤ l.toFinset.card := by
  rw [← Std.TreeMap.length_keys, ← List.toFinset_card_of_nodup Std.TreeMap.nodup_keys]
  refine Finset.card_le_card fun a ha => ?_
  exact List.mem_toFinset.mpr (h a (Std.TreeMap.mem_keys.mp (List.mem_toFinset.mp ha)))

namespace Heap

/-- The objects of a heap are a number of natives, strings with texts from a list, and functions
from a list; the known texts are among the strings. -/
structure Counted (natives : Nat) (fs : List Function) (known texts : List String) (h : Heap) :
    Prop where
  size : h.size = natives + h.strings.size + h.functions.size
  known : ∀ text ∈ known, text ∈ h.strings
  strings : ∀ text ∈ h.strings, text ∈ texts
  ids : ∀ id ∈ h.functions, id ∈ fs.map (·.id)
  functions : ∀ f, h.Has f → f ∈ fs

variable {natives : Nat} {fs : List Function} {known texts more : List String} {h : Heap}

/-- A heap that is counted has natives, each function once and each text once. -/
theorem Counted.size_le (H : h.Counted natives fs known texts) :
    h.size ≤ natives + (fs.map (·.id)).toFinset.card + texts.toFinset.card := by
  have hstrings := size_le_card H.strings
  have hfunctions := size_le_card H.ids
  have hsize := H.size
  omega

theorem Counted.mono (H : h.Counted natives fs known texts) (hsub : texts ⊆ more) :
    h.Counted natives fs known more :=
  { H with strings := fun text ht => hsub (H.strings text ht) }

/-- A text from the list. -/
theorem Counted.intern (H : h.Counted natives fs known texts) {text : String} (ht : text ∈ texts) :
    (h.intern text).2.Counted natives fs (text :: known) texts := by
  have hhas : ∀ f, (h.intern text).2.Has f → f ∈ fs := fun f hf => H.functions f (has_intern hf)
  rw [Heap.intern] at hhas ⊢
  cases hs : h.strings[text]? with
  | some ref =>
    refine ⟨H.size, ?_, H.strings, H.ids, H.functions⟩
    rw [List.forall_mem_cons]
    exact ⟨Std.TreeMap.mem_iff_isSome_getElem?.mpr (by rw [hs]; rfl), H.known⟩
  | none =>
    rw [hs] at hhas
    have hnew : h.strings.contains text = false := by
      rw [Std.TreeMap.contains_eq_isSome_getElem?, hs]
      rfl
    refine ⟨?_, ?_, fun t htable => ?_, H.ids, hhas⟩
    · have hsize := H.size
      show (h.objects.push _).size = natives + (h.strings.insert text h.nextRef).size +
        h.functions.size
      rw [Array.size_push, Std.TreeMap.size_insert, hnew, if_neg Bool.false_ne_true]
      rw [Heap.size] at hsize
      omega
    · rw [List.forall_mem_cons]
      exact ⟨Std.TreeMap.mem_insert_self,
        fun t hknown => Std.TreeMap.mem_insert.mpr (.inr (H.known t hknown))⟩
    · rcases Std.TreeMap.mem_insert.mp htable with heq | htable
      · rw [← Std.LawfulEqOrd.eq_of_compare heq]
        exact ht
      · exact H.strings t htable

/-- A function from the list. -/
theorem Counted.function (H : h.Counted natives fs known texts) {f : Function} (hf : f ∈ fs) :
    (h.function f).2.Counted natives fs known texts := by
  have hhas : ∀ g, (h.function f).2.Has g → g ∈ fs := fun g hg =>
    (has_function hg).elim (H.functions g) fun heq => heq ▸ hf
  rw [Heap.function] at hhas ⊢
  cases hs : h.functions[f.id]? with
  | some ref => exact H
  | none =>
    rw [hs] at hhas
    have hnew : h.functions.contains f.id = false := by
      rw [Std.TreeMap.contains_eq_isSome_getElem?, hs]
      rfl
    refine ⟨?_, H.known, H.strings, fun id htable => ?_, hhas⟩
    · have hsize := H.size
      show (h.objects.push _).size = natives + h.strings.size +
        (h.functions.insert f.id h.nextRef).size
      rw [Array.size_push, Std.TreeMap.size_insert, hnew, if_neg Bool.false_ne_true]
      rw [Heap.size] at hsize
      omega
    · rcases Std.TreeMap.mem_insert.mp htable with heq | htable
      · rw [← Std.LawfulEqOrd.eq_of_compare heq]
        exact List.mem_map_of_mem hf
      · exact H.ids id htable

/-- One more native. -/
theorem Counted.native (H : h.Counted natives fs known texts) (n : Native) :
    (h.native n).2.Counted (natives + 1) fs known texts := by
  refine ⟨?_, H.known, H.strings, H.ids, fun f hf => ?_⟩
  · have hsize := H.size
    show (h.objects.push _).size = natives + 1 + h.strings.size + h.functions.size
    rw [Array.size_push]
    rw [Heap.size] at hsize
    omega
  · obtain ⟨ref, hf⟩ := hf
    rcases get?_native hf with hf | hf
    · exact H.functions f ⟨ref, hf⟩
    · cases hf

/-- A known text is not made again. -/
theorem Counted.request_known (H : h.Counted natives fs known texts) {text : String}
    (ht : text ∈ known) :
    h.request (some (.string text)) = h := by
  obtain ⟨ref, href⟩ := Option.isSome_iff_exists.mp
    (Std.TreeMap.mem_iff_isSome_getElem?.mp (H.known text ht))
  rw [request, alloc, Heap.intern, href]

end Heap

namespace Machine

/-- Functions whose literals are functions among them and texts from a list. -/
structure Closed (fs : List Function) (texts : List String) : Prop where
  functions : ∀ f ∈ fs, ∀ g, .function g ∈ f.chunk.literals → g ∈ fs
  texts : ∀ f ∈ fs, ∀ text, .string text ∈ f.chunk.literals → text ∈ texts

/-- The objects of a machine are counted, and it executes functions from the list. -/
structure Thrifty (natives : Nat) (fs : List Function) (known texts : List String) (m : Machine) :
    Prop where
  heap : m.heap.Counted natives fs known texts
  frames : ∀ fr ∈ m.frames, fr.function ∈ fs

variable {natives : Nat} {fs : List Function} {known texts joined : List String} {m k : Machine}

/-! ## Steps -/

/-- One instruction adds no more to the heap than the text that it makes of two strings. -/
theorem Thrifty.heap_step (H : m.Thrifty natives fs known (texts ++ joined))
    (hclosed : Closed fs texts) :
    (Exec.leaves Exec.step m).heap.Counted natives fs known
      (texts ++ (joined ++ m.joins?.toList)) := by
  have hheap := H.heap.mono (List.append_assoc texts joined m.joins?.toList ▸
    List.subset_append_left _ _)
  rw [Exec.heap_step]
  cases hasks : m.asks? with
  | none => exact hheap
  | some object =>
    rcases asks?_cases hasks with ⟨text, rfl, hjoins⟩ | ⟨fr, hfr, ⟨text, rfl, ht⟩ | ⟨f, rfl, hf⟩⟩
    · have hmem : text ∈ texts ++ (joined ++ m.joins?.toList) := by simp [hjoins]
      exact { hheap.intern hmem with known :=
        fun t ht => (hheap.intern hmem).known t (List.mem_cons_of_mem _ ht) }
    · have hmem : text ∈ texts ++ (joined ++ m.joins?.toList) :=
        List.mem_append_left _ (hclosed.texts _ (H.frames fr hfr) text ht)
      exact { hheap.intern hmem with known :=
        fun t ht => (hheap.intern hmem).known t (List.mem_cons_of_mem _ ht) }
    · exact hheap.function (hclosed.functions _ (H.frames fr hfr) f hf)

/-- After one instruction the machine executes functions from the list, as before. -/
theorem Thrifty.frames_step (H : m.Thrifty natives fs known texts) {signal : Signal}
    (hrun : Exec.step.run m = .ok signal k) : ∀ fr ∈ k.frames, fr.function ∈ fs := by
  cases hm : m.frames with
  | nil => exact ((Exec.ends_step_nil hm).ok hrun).elim
  | cons fr rest =>
    obtain ⟨instruction, line, -, hmoves⟩ :=
      (Exec.ends_step (f := fr.function) (i := fr.cursor) hm).ok hrun
    intro fr' hfr'
    rcases hmoves.frames fr' hfr' with hrest | ⟨hsame, -⟩ | ⟨-, hhas⟩
    · exact H.frames fr' (hm ▸ List.mem_cons_of_mem _ hrest)
    · exact hsame ▸ H.frames fr (hm ▸ List.mem_cons_self)
    · exact H.heap.functions _ hhas

/-! ## Runs -/

/-- A run makes no objects but functions that are known, and the texts that are joined in it. -/
theorem Thrifty.interpret (hclosed : Closed fs texts) (budget : Nat)
    (H : m.Thrifty natives fs known (texts ++ joined)) (text : String) :
    (interpret budget m text).machine.Thrifty natives fs known
      (texts ++ (joined ++ m.joinedBy budget)) := by
  induction budget generalizing m joined text with
  | zero =>
    rw [joinedBy, List.append_nil]
    exact H
  | succ n ih =>
    have hheap := H.heap_step hclosed
    rw [Machine.interpret, joinedBy]
    cases hrun : Exec.step.run m with
    | ok signal k =>
      rw [Exec.leaves_ok hrun] at hheap
      have K : k.Thrifty natives fs known (texts ++ (joined ++ m.joins?.toList)) :=
        ⟨hheap, H.frames_step hrun⟩
      cases signal with
      | next | printed =>
        have hrest := ih K
        rw [List.append_assoc joined] at hrest
        exact hrest _
      | exit e =>
        rw [List.append_nil]
        cases e <;> exact ⟨K.heap, K.frames⟩
    | error e k =>
      rw [Exec.leaves_error hrun] at hheap
      rw [List.append_nil]
      exact ⟨hheap, fun fr hfr => absurd hfr List.not_mem_nil⟩

theorem Thrifty.proceed (hclosed : Closed fs texts)
    (H : m.Thrifty natives fs known (texts ++ joined))
    (budget : Nat) : (m.proceed budget).machine.Thrifty natives fs known
      (texts ++ (joined ++ joinedBy budget { m with status := .running })) := by
  have H' : Thrifty natives fs known (texts ++ joined) { m with status := .running } :=
    ⟨H.heap, H.frames⟩
  exact H'.interpret hclosed budget ""

theorem Thrifty.refuse (H : m.Thrifty natives fs known (texts ++ joined)) :
    m.refuse.machine.Thrifty natives fs known (texts ++ (joined ++ [])) := by
  rw [List.append_nil]
  exact H

/-- However a machine is run and resumed, the texts that have been made of two strings are all that
is new. -/
theorem Joined.thrifty (hclosed : Closed fs texts) (H : m.Thrifty natives fs known texts)
    (h : m.Joined joined k) :
    k.Thrifty natives fs known (texts ++ joined) := by
  induction h with
  | same =>
    rw [List.append_nil]
    exact H
  | redirect sink _ ih => exact ⟨ih.heap, ih.frames⟩
  | @run _ k budget _ ih =>
    rw [Machine.run, runJoins]
    cases k.status with
    | ready => exact ih.proceed hclosed budget
    | empty | running | suspended | finished | faulted => exact ih.refuse
  | @resume _ k budget _ ih =>
    rw [Machine.resume, resumeJoins]
    cases k.status with
    | ready | suspended => exact ih.proceed hclosed budget
    | empty | running | finished | faulted => exact ih.refuse

/-! ## Loading -/

/-- Putting texts into the heap. -/
theorem counted_interns (H : m.heap.Counted natives fs known texts) (more : List String)
    (hmore : more ⊆ texts) :
    (more.foldl intern m).heap.Counted natives fs (more.reverse ++ known) texts := by
  induction more generalizing m known with
  | nil => exact H
  | cons text more ih =>
    obtain ⟨ht, hmore⟩ := List.cons_subset.mp hmore
    rw [List.foldl_cons, List.reverse_cons, List.append_assoc]
    exact ih (H.intern ht) hmore

/-- Binding natives. -/
theorem counted_natives (H : m.heap.Counted natives fs known texts)
    (entries : List (String × Native)) :
    (entries.foldl (fun m e => m.bind e.1 (.native e.2)) m).heap.Counted
      (natives + entries.length) fs known texts := by
  induction entries generalizing m natives with
  | nil => exact H
  | cons e entries ih =>
    rw [List.length_cons, Nat.add_comm entries.length, ← Nat.add_assoc]
    exact ih (m := m.bind e.1 (.native e.2)) (H.native e.2)

/-- Binding compiled functions. -/
theorem counted_scripts (H : m.heap.Counted natives fs known texts)
    (entries : List (String × Function)) (hfs : ∀ e ∈ entries, e.2 ∈ fs) :
    (entries.foldl (fun m e => m.bind e.1 (.function e.2)) m).heap.Counted natives fs
      known texts := by
  induction entries generalizing m with
  | nil => exact H
  | cons e entries ih =>
    obtain ⟨he, hfs⟩ := List.forall_mem_cons.mp hfs
    exact ih (m := m.bind e.1 (.function e.2)) (H.function he) hfs

/-- The natives of the host are made once each, and so are its functions. -/
theorem counted_bindHost (H : m.heap.Counted natives fs known texts) (hfs : m.host.functions ⊆ fs) :
    m.bindHost.heap.Counted (natives + m.host.natives.size) fs known texts := by
  obtain ⟨k, hk⟩ : ∃ k, k = m.host.natives.foldl (fun m name n => m.bind name (.native n)) m :=
    ⟨_, rfl⟩
  have hhost : k.host = m.host := by
    rw [hk]
    exact foldl_table_rel (fun (k : Machine) (_ : Unit) => k.host = m.host) _ (g := fun _ _ _ => ())
      (y := ()) rfl fun _ _ _ _ _ h => h
  have hbound : m.bindHost = k.host.scripts.foldl
    (fun m name f => m.bind name (.function f)) k := by
    rw [hk]
    rfl
  rw [hbound, hhost, Std.TreeMap.foldl_eq_foldl_toList]
  refine counted_scripts ?_ _ fun e he => hfs (List.mem_map_of_mem he)
  rw [hk, Std.TreeMap.foldl_eq_foldl_toList, ← Std.TreeMap.length_toList]
  exact counted_natives H _

/-- A machine that has loaded a program. -/
theorem thrifty_load (m : Machine) {p : Program} (hmain : p.main ∈ fs) (hfs : m.host.functions ⊆ fs)
    (hstrings : p.strings ⊆ texts) :
    (m.load p).Thrifty m.host.natives.size fs (p.strings.reverse) texts := by
  have hempty : m.reset.heap.Counted 0 fs [] texts := by
    refine ⟨rfl, nofun, fun text h => ?_, fun id h => ?_, ?_⟩
    · simp [reset, new, Heap.empty] at h
    · simp [reset, new, Heap.empty] at h
    · rintro f ⟨ref, hf⟩
      cases hf
  obtain ⟨k, hk⟩ : ∃ k, k = p.strings.foldl intern m.reset := ⟨_, rfl⟩
  have hhost : k.host = m.host := by
    rw [hk]
    exact List.foldlRecOn (motive := fun k : Machine => k.host = m.host) p.strings intern rfl
      fun _ h _ _ => h
  have hinterned := counted_interns hempty p.strings hstrings
  rw [List.append_nil, ← hk] at hinterned
  have hbound := counted_bindHost hinterned (hhost ▸ hfs)
  rw [Nat.zero_add, hhost] at hbound
  have hload : m.load p = { k.bindHost with
      heap := (k.bindHost.heap.function p.main).2
      stack := #[.object (k.bindHost.heap.function p.main).1]
      frames := [⟨p.main, 0, 0⟩]
      status := .ready } := by rw [hk]; rfl
  rw [hload]
  refine ⟨hbound.function hmain, fun fr hfr => ?_⟩
  rw [List.mem_singleton.mp hfr]
  exact hmain

end Machine

/-! ## Bounds -/

theorem Function.family_eq_inner (f : Function) : f.family = f :: f.inner :=
  f.family_eq

/-- Functions together with all functions inside them. -/
theorem closed_families (roots : List Function) :
    Machine.Closed (roots.flatMap Function.family) (roots.flatMap Function.texts) := by
  refine ⟨fun f hf g hg => ?_, fun f hf text ht => ?_⟩
  · obtain ⟨root, hroot, hf⟩ := List.mem_flatMap.mp hf
    refine List.mem_flatMap.mpr ⟨root, hroot, Function.family_subset hf ?_⟩
    rw [f.family_eq]
    exact List.mem_cons_of_mem _ (Literal.family_subset_familyAll hg g.self_mem_family)
  · obtain ⟨root, hroot, hf⟩ := List.mem_flatMap.mp hf
    exact List.mem_flatMap.mpr ⟨root, hroot, Function.mem_texts.mpr ⟨f, hf, ht⟩⟩

/-- The functions themselves are as many as there are, and the others are inside them. -/
theorem card_families_le (roots : List Function) :
    ((roots.flatMap Function.family).map (·.id)).toFinset.card ≤
      roots.length + (roots.flatMap fun f => f.inner.map (·.id)).toFinset.card := by
  have hsub : ((roots.flatMap Function.family).map (·.id)).toFinset ⊆
      (roots.map (·.id)).toFinset ∪ (roots.flatMap fun f => f.inner.map (·.id)).toFinset := by
    intro id hid
    simp only [List.mem_toFinset, Finset.mem_union, List.mem_map, List.mem_flatMap,
      Function.family_eq_inner, List.mem_cons] at hid ⊢
    obtain ⟨f, ⟨root, hroot, rfl | hf⟩, rfl⟩ := hid
    · exact .inl ⟨f, hroot, rfl⟩
    · exact .inr ⟨root, hroot, f, hf, rfl⟩
  have hroots : (roots.map (·.id)).toFinset.card ≤ roots.length :=
    (List.toFinset_card_le (l := roots.map (·.id))).trans_eq (List.length_map _)
  have hunion := (Finset.card_le_card hsub).trans (Finset.card_union_le _ _)
  omega

/-- The texts of a program are those that are written in the script and in its functions, the names
of globals among them, each of them once.  When the program has been loaded they are on the heap, so
no instruction that takes one of them makes an object.  However the machine is run and resumed from
then on, its heap has at most the natives and the functions of the host, the script itself, one
object for each function and each text that is written in any of them, and one for each text that
has been made of two strings. -/
theorem heap_grows_by_joining {unit : Nat} {globals : List String} {source : String} {p : Program}
    (hp : compile unit globals source = .ok p) :
    p.strings.Nodup ∧
    (∀ text, text ∈ p.strings ↔ ∃ f ∈ p.main.family, .string text ∈ f.chunk.literals) ∧
    ∀ (m k : Machine) (joined : List String), (m.load p).Joined joined k →
      (∀ fr rest index text, k.frames = fr :: rest → fr.function ∈ p.main.family →
        fr.function.chunk.instruction? fr.cursor = some (.literal index) →
        fr.function.chunk.literal? index = some (.string text) →
        (Exec.leaves Exec.step k).heap = k.heap) ∧
      k.heap.size ≤ m.host.natives.size + m.host.scripts.size + 1 +
        ((p.main :: m.host.functions).flatMap fun f => f.inner.map (·.id)).toFinset.card +
        ((p.main :: m.host.functions).flatMap Function.texts).toFinset.card +
        joined.toFinset.card := by
  obtain ⟨s, -, hprogram⟩ := spelled_of_compileTokens (orderly_tokens source) hp
  obtain ⟨-, hnodup, hstrings⟩ := s.gathered hprogram
  refine ⟨hnodup, fun text => (hstrings text).trans Function.mem_texts, fun m k joined hk => ?_⟩
  have hroots : p.main :: m.host.functions ⊆ (p.main :: m.host.functions).flatMap Function.family :=
    fun f hf => List.mem_flatMap.mpr ⟨f, hf, f.self_mem_family⟩
  have htexts : p.strings ⊆ (p.main :: m.host.functions).flatMap Function.texts := fun text ht =>
    List.mem_flatMap.mpr ⟨p.main, List.mem_cons_self, (hstrings text).mp ht⟩
  have hload := Machine.thrifty_load m (hroots List.mem_cons_self)
    (fun f hf => hroots (List.mem_cons_of_mem _ hf)) htexts
  -- whatever the machine does, the texts on its heap are written somewhere or have been joined
  have hthrifty := hk.thrifty (closed_families _) hload
  refine ⟨fun fr rest index text hframes hmain hi hl => ?_, ?_⟩
  -- a text that is written has its object since the program was loaded
  · have hknown : text ∈ p.strings.reverse :=
      List.mem_reverse.mpr ((hstrings text).mpr
        (Function.mem_texts.mpr ⟨fr.function, hmain, List.mem_of_getElem? hl⟩))
    rw [Exec.heap_step, Machine.asks?_literal hframes hi hl]
    exact hthrifty.heap.request_known hknown
  · have hsize := hthrifty.heap.size_le
    -- the bound counts the roots apart from the functions inside them
    have hfunctions := card_families_le (p.main :: m.host.functions)
    have hlength : (p.main :: m.host.functions).length = m.host.scripts.size + 1 := by
      rw [List.length_cons, Host.functions, List.length_map, Std.TreeMap.length_toList]
    have hunion := Finset.card_union_le
      ((p.main :: m.host.functions).flatMap Function.texts).toFinset joined.toFinset
    rw [List.toFinset_append] at hsize
    omega

/-- A script without end, which comes past a function and makes a longer text each time that it goes
through its loop. -/
def growingScript : String :=
  "let s = \"\"; while (true) \x7b fun f() \x7b \x7d s = s + \"ab\"; yield; \x7d"

/-- A script that joins a text to its own result before and after a pause. -/
theorem heap_grows_by_joining_growing : ∃ p, compile 0 Host.builtins.names growingScript = .ok p ∧
    p.strings.Nodup ∧ ∀ budget budget' : Nat,
      ((((Machine.new .builtins).load p).run budget).machine.resume budget').machine.heap.size ≤
        Host.builtins.natives.size + Host.builtins.scripts.size + 1 +
          ((p.main :: Host.builtins.functions).flatMap fun f => f.inner.map (·.id)).toFinset.card +
          ((p.main :: Host.builtins.functions).flatMap Function.texts).toFinset.card +
          ([] ++ ((Machine.new .builtins).load p).runJoins budget ++
            (((Machine.new .builtins).load p).run budget).machine.resumeJoins
            budget').toFinset.card := by
  have hok : (compile 0 Host.builtins.names growingScript).isOk = true := by decide +kernel
  obtain ⟨p, hp⟩ := exists_of_isOk hok
  obtain ⟨hnodup, -, hruns⟩ := heap_grows_by_joining hp
  exact ⟨p, hp, hnodup, fun budget budget' =>
    (hruns (Machine.new .builtins) _ _ (.resume budget' (.run budget .same))).2⟩

end EntityScript
