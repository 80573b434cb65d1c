/-
# Machines that mirror a world

The objects of a machine and the things of a world are the same in the same order, with compiled
functions in place of those that are written (`Heap.Mirrors`).  So everything that can be asked
about a value has the same answer on both sides, and whatever comes up next gets the same reference.

A machine that has just loaded a program mirrors the world in which its script starts
(`mirrors_load`).
-/
import EntityScript.Proofs.Compile.Library
import EntityScript.Proofs.Machine.Instructions
import EntityScript.Proofs.Script.Standing

namespace EntityScript

/-- An object of a machine is in the place of a thing. -/
inductive Object.Mirrors : Object → Thing → Prop
  | string {text : String} : Mirrors (.string text) (.string text)
  | native {n : Native} : Mirrors (.native n) (.native n)
  | function {f : Function} {r : Routine} : r.Compiled f → Mirrors (.function f) (.routine r)

namespace Object.Mirrors

variable {o o' : Object} {t t' : Thing}

theorem string?_eq (h : o.Mirrors t) : o.string? = t.string? := by
  cases h <;> rfl

/-- An object is displayed like the thing in whose place it is. -/
theorem text_eq (h : o.Mirrors t) : o.text = t.text := by
  cases h with
  | string | native => rfl
  | function hr =>
    obtain ⟨body, last, hf, -⟩ := hr
    rw [Object.text, Thing.text, hf]
    rfl

/-- Two objects are the same when the things in whose places they are agree. -/
theorem same_eq (h : o.Mirrors t) (h' : o'.Mirrors t') : o.same o' = t.same t' := by
  cases h with
  | string | native => cases h' <;> rfl
  | function hr =>
    cases h' with
    | string | native => rfl
    | function hr' => rw [Object.same, Thing.same, hr.id_eq, hr'.id_eq]

end Object.Mirrors

/-! ## Stores -/

namespace Store

/-- Looking for a thing that a table knows gives what the table says. -/
theorem find_eq {s : Store} {test : Thing → Bool} (found : Option Ref) (new : Thing)
    (h : ∀ ref, found = some ref ↔ ∃ t, s.get? ref = some t ∧ test t = true) :
    s.find test new = found.elim (⟨s.length⟩, s ++ [new]) (·, s) := by
  rw [find]
  cases hi : s.findIdx? test with
  | some i =>
    obtain ⟨hlt, hp, -⟩ := List.findIdx?_eq_some_iff_getElem.mp hi
    have hfound : found = some ⟨i⟩ := (h ⟨i⟩).mpr ⟨s[i], List.getElem?_eq_getElem hlt, hp⟩
    rw [hfound]
    rfl
  | none =>
    cases hf : found with
    | none => rfl
    | some ref =>
      obtain ⟨t, ht, hp⟩ := (h ref).mp hf
      have hnone := List.findIdx?_eq_none_iff.mp hi t (List.mem_of_getElem? ht)
      rw [hp] at hnone
      cases hnone

end Store

/-- The objects of a heap are in the places of the things of a store. -/
structure Heap.Mirrors (h : Heap) (s : Store) : Prop where
  canonical : h.Canonical
  things : List.Forall₂ Object.Mirrors h.objects.toList s

namespace Heap.Mirrors

variable {h : Heap} {s : Store}

theorem size_eq (hm : h.Mirrors s) : h.objects.size = s.length := by
  rw [← Array.length_toList]
  exact hm.things.length_eq

/-- A reference leads to an object and to the thing that it is in the place of, or to nothing. -/
theorem get? (hm : h.Mirrors s) (ref : Ref) :
    h.get? ref = none ∧ s.get? ref = none ∨
      ∃ o t, h.get? ref = some o ∧ s.get? ref = some t ∧ o.Mirrors t := by
  rw [Heap.get?, Store.get?]
  by_cases hlt : ref.index < s.length
  · have hlt' : ref.index < h.objects.size := by
      rw [hm.size_eq]
      exact hlt
    obtain ⟨-, hget⟩ := List.forall₂_iff_get.mp hm.things
    refine .inr ⟨h.objects[ref.index], s[ref.index], Array.getElem?_eq_getElem hlt',
      List.getElem?_eq_getElem hlt, ?_⟩
    exact hget ref.index (by simpa using hlt') hlt
  · left
    constructor
    · rw [Array.getElem?_eq_none_iff, hm.size_eq]
      omega
    · rw [List.getElem?_eq_none_iff]
      omega

/-- A reference to a string leads to the same string on both sides. -/
theorem get?_string (hm : h.Mirrors s) (ref : Ref) (text : String) :
    h.get? ref = some (.string text) ↔ s.get? ref = some (.string text) := by
  rcases hm.get? ref with ⟨ho, ht⟩ | ⟨o, t, ho, ht, hot⟩
  · simp [ho, ht]
  · rw [ho, ht]
    cases hot <;> simp

/-- The two heaps after one more object. -/
theorem push (hm : h.Mirrors s) {h' : Heap} {o : Object} {t : Thing} (hc : h'.Canonical)
    (hpush : h'.objects = h.objects.push o) (hot : o.Mirrors t) : h'.Mirrors (s ++ [t]) := by
  refine ⟨hc, ?_⟩
  rw [hpush, Array.toList_push]
  exact List.rel_append hm.things (.cons hot .nil)

/-- Making a text gives the same reference on both sides. -/
theorem intern (hm : h.Mirrors s) (text : String) :
    (h.intern text).1 = (s.intern text).1 ∧ (h.intern text).2.Mirrors (s.intern text).2 := by
  have hfind : s.intern text = _ := Store.find_eq h.strings[text]? (.string text) (by
    intro ref
    rw [hm.canonical.strings, hm.get?_string]
    constructor
    · intro ht
      exact ⟨_, ht, by simp [Thing.string?]⟩
    · rintro ⟨t, ht, htext⟩
      cases t with
      | string u =>
        obtain rfl : u = text := by simpa [Thing.string?] using htext
        exact ht
      | routine r | native n => simp [Thing.string?] at htext)
  have hc := (intern_spec hm.canonical text).2.1
  rw [hfind]
  rw [Heap.intern] at hc ⊢
  cases hs : h.strings[text]? with
  | some ref => exact ⟨rfl, hm⟩
  | none =>
    rw [hs] at hc
    exact ⟨by rw [← hm.size_eq]; rfl, hm.push hc rfl .string⟩

theorem routine (hm : h.Mirrors s) {r : Routine} {f : Function} (hr : r.Compiled f) :
    (h.function f).1 = (s.routine r).1 ∧ (h.function f).2.Mirrors (s.routine r).2 := by
  have hfind : s.routine r = _ := Store.find_eq h.functions[f.id]? (.routine r) (by
    intro ref
    rw [hm.canonical.functions, hr.id_eq]
    constructor
    · rintro ⟨g, hid, hg⟩
      rcases hm.get? ref with ⟨ho, -⟩ | ⟨o, t, ho, ht, hot⟩
      · rw [ho] at hg
        cases hg
      · obtain rfl := Option.some.inj (ho.symm.trans hg)
        cases hot with
        | function hq => exact ⟨_, ht, by simp [Thing.isRoutine, ← hq.id_eq, hid]⟩
    · rintro ⟨t, ht, hid⟩
      rcases hm.get? ref with ⟨-, hnone⟩ | ⟨o, t', ho, ht', hot⟩
      · rw [hnone] at ht
        cases ht
      · obtain rfl := Option.some.inj (ht'.symm.trans ht)
        cases hot with
        | string | native => simp [Thing.isRoutine] at hid
        | function hq => exact ⟨_, by simpa [Thing.isRoutine, ← hq.id_eq] using hid, ho⟩)
  have hc := (function_spec hm.canonical f).2.1
  rw [hfind]
  rw [Heap.function] at hc ⊢
  cases hs : h.functions[f.id]? with
  | some ref => exact ⟨rfl, hm⟩
  | none =>
    rw [hs] at hc
    exact ⟨by rw [← hm.size_eq]; rfl, hm.push hc rfl (.function hr)⟩

theorem native (hm : h.Mirrors s) (n : Native) :
    (h.native n).1 = (s.native n).1 ∧ (h.native n).2.Mirrors (s.native n).2 :=
  ⟨by rw [Heap.native, Store.native, ← hm.size_eq]; rfl,
    hm.push (native_spec hm.canonical n).2.1 rfl .native⟩

/-- Values are equal on the heap when they are in the store. -/
theorem equal_eq (hm : h.Mirrors s) (a b : Value) : h.equal a b = s.equal a b := by
  cases a with
  | object x =>
    cases b with
    | object y =>
      rw [Heap.equal, Store.equal]
      rcases hm.get? x with ⟨hx, hx'⟩ | ⟨o, t, hx, hx', hot⟩
      · rw [hx, hx']
      · rcases hm.get? y with ⟨hy, hy'⟩ | ⟨o', t', hy, hy', hot'⟩
        · rw [hx, hx', hy, hy']
        · rw [hx, hx', hy, hy']
          exact hot.same_eq hot'
    | nil | bool | int | float | vector | point => rfl
  | nil | bool | int | float | vector | point => rfl

/-- Values are displayed in the same way. -/
theorem display_eq (hm : h.Mirrors s) (v : Value) : h.display v = s.display v := by
  cases v with
  | object ref =>
    rw [Heap.display, Store.display]
    rcases hm.get? ref with ⟨ho, ht⟩ | ⟨o, t, ho, ht, hot⟩
    · rw [ho, ht]
    · rw [ho, ht]
      exact hot.text_eq
  | nil | bool | int | float | vector | point => rfl

/-- A reference is to the same text on both sides, or to none. -/
theorem string?_eq (hm : h.Mirrors s) (ref : Ref) :
    (h.get? ref).bind Object.string? = (s.get? ref).bind Thing.string? := by
  rcases hm.get? ref with ⟨ho, ht⟩ | ⟨o, t, ho, ht, hot⟩
  · rw [ho, ht]
    rfl
  · rw [ho, ht]
    exact hot.string?_eq

/-- The sum of two values is the same, and so is what it leaves. -/
theorem sum (hm : h.Mirrors s) (a b : Value) :
    (∃ e, h.sum a b = .error e ∧ s.sum a b = .error e) ∨
      ∃ v h' s', h.sum a b = .ok (v, h') ∧ s.sum a b = .ok (v, s') ∧ h'.Mirrors s' ∧
      h.Extends h' := by
  have hplain (hh : h.sum a b = (a.add b).map (·, h)) (hs : s.sum a b = (a.add b).map (·, s)) :
      (∃ e, h.sum a b = .error e ∧ s.sum a b = .error e) ∨
        ∃ v h' s', h.sum a b = .ok (v, h') ∧ s.sum a b = .ok (v, s') ∧ h'.Mirrors s' ∧
        h.Extends h' := by
    rw [hh, hs]
    cases a.add b with
    | error e => exact .inl ⟨e, rfl, rfl⟩
    | ok v => exact .inr ⟨v, h, s, rfl, rfl, hm, .refl h⟩
  cases a with
  | object x =>
    cases b with
    | object y =>
      rw [Heap.sum, Store.sum, hm.string?_eq x, hm.string?_eq y]
      cases (s.get? x).bind Thing.string? with
      | none => exact .inl ⟨_, rfl, rfl⟩
      | some t =>
        cases (s.get? y).bind Thing.string? with
        | none => exact .inl ⟨_, rfl, rfl⟩
        | some u =>
          obtain ⟨href, hm'⟩ := hm.intern (t ++ u)
          refine .inr ⟨_, _, _, rfl, by rw [href], hm', (intern_spec hm.canonical _).2.2⟩
    | nil | bool | int | float | vector | point => exact hplain rfl rfl
  | nil | bool | int | float | vector | point => exact hplain rfl rfl

end Heap.Mirrors

/-- A machine has the globals of a world, and its objects are in the places of the things of the
world. -/
structure Machine.Mirrors (m : Machine) (w : World) : Prop where
  heap : m.heap.Mirrors w.store
  globals : m.globals = w.globals
  sink : m.sink = w.sink

/-! ## Reading a library -/

/-- The scripts that the sources of a library are read as. -/
structure Library.Reading (lib : Library) where
  script : Nat → Script
  spelled : ∀ unit p, lib.program unit = .ok p → (script unit).Spelled (tokens (lib unit).2)
  compiled : ∀ unit p, lib.program unit = .ok p → (script unit).program? unit (lib unit).1 = some p

/-- Every library can be read. -/
theorem Library.nonempty_reading (lib : Library) : Nonempty lib.Reading := by
  have hread : ∀ unit, ∃ s : Script, ∀ p, lib.program unit = .ok p →
      s.Spelled (tokens (lib unit).2) ∧ s.program? unit (lib unit).1 = some p := by
    intro unit
    cases hp : lib.program unit with
    | error e => exact ⟨default, fun p h => by cases h⟩
    | ok p =>
      obtain ⟨s, hs, hprogram⟩ := spelled_of_compileTokens (orderly_tokens _) hp
      refine ⟨s, ?_⟩
      intro q hq
      obtain rfl := Except.ok.inj hq
      exact ⟨hs, hprogram⟩
  choose script hscript using hread
  exact ⟨script, fun unit p hp => (hscript unit p hp).1, fun unit p hp => (hscript unit p hp).2⟩

/-- Where the numbers of functions differ, the number leads to the function that is written. -/
theorem find?_compiled {rs : List Routine} {fs : List Function} {f : Function}
    (h : List.Forall₂ Routine.Compiled rs fs)
    (hd : fs.Pairwise fun f g => f.id.serial ≠ g.id.serial) (hf : f ∈ fs) :
    ∃ r, rs.find? (·.id = f.id) = some r ∧ r.Compiled f := by
  induction h with
  | nil => cases hf
  | @cons r g rs fs hr _ ih =>
    rcases List.mem_cons.mp hf with rfl | hmem
    · exact ⟨r, by simp [hr.id_eq], hr⟩
    · obtain ⟨q, hq, hqf⟩ := ih (List.pairwise_cons.mp hd).2 hmem
      refine ⟨q, ?_, hqf⟩
      have hne : r.id ≠ f.id := by
        intro heq
        rw [← hr.id_eq] at heq
        exact (List.pairwise_cons.mp hd).1 f hmem (by rw [heq])
      rw [List.find?_cons_of_neg (by simpa using hne)]
      exact hq

namespace Library.Reading

variable {lib : Library} (reading : lib.Reading)

/-- A function of a library is compiled from one that is written in the scripts. -/
theorem routine {f : Function} (hf : lib.Holds f) :
    ∃ r, (reading.script f.id.unit).routine? f.id.unit f.id.serial = some r ∧ r.Compiled f := by
  obtain ⟨p, hp, hmem⟩ := hf
  obtain ⟨hall, -⟩ := compiled_of_program? (reading.spelled _ p hp) (reading.compiled _ p hp)
  obtain ⟨-, next, hnum⟩ := family_of_compile hp
  exact find?_compiled hall hnum.distinct hmem

/-- The script of a unit is compiled to the main function of its program, and its texts are those of
the program. -/
theorem main {unit : Nat} {p : Program} (hp : lib.program unit = .ok p) :
    ((reading.script unit).main unit).Compiled p.main ∧
      p.strings = (reading.script unit).texts unit (lib unit).1 := by
  obtain ⟨hall, hstrings⟩ := compiled_of_program? (reading.spelled _ p hp) (reading.compiled _ p hp)
  rw [Function.family_eq] at hall
  cases hall with
  | cons hmain _ => exact ⟨hmain, hstrings⟩

end Library.Reading

/-! ## Loading -/

namespace Machine.Mirrors

variable {m : Machine} {w : World}

theorem intern (h : m.Mirrors w) (text : String) : (m.intern text).Mirrors (w.intern text) :=
  ⟨(h.heap.intern text).2, h.globals, h.sink⟩

/-- A global for a native is made on both sides. -/
theorem bindNative (h : m.Mirrors w) (name : String) (n : Native) :
    (m.bind name (.native n)).Mirrors (w.bind name (w.store.native n)) := by
  obtain ⟨href, hheap⟩ := h.heap.native n
  refine ⟨hheap, ?_, h.sink⟩
  rw [World.bind, ← href, ← h.globals]
  rfl

theorem bindRoutine (h : m.Mirrors w) (name : String) {r : Routine} {f : Function}
    (hr : r.Compiled f) :
    (m.bind name (.function f)).Mirrors (w.bind name (w.store.routine r)) := by
  obtain ⟨href, hheap⟩ := h.heap.routine hr
  refine ⟨hheap, ?_, h.sink⟩
  rw [World.bind, ← href, ← h.globals]
  rfl

end Machine.Mirrors

/-- A machine that has loaded a program mirrors the world in which the script starts. -/
theorem mirrors_load {lib : Library} (reading : lib.Reading) {m : Machine} (hfrom : m.host.From lib)
    {unit : Nat} {p : Program} (hp : lib.program unit = .ok p) {w : World}
    (hw : w = World.start reading.script m.host
      ((reading.script unit).texts unit (lib unit).1) m.sink) :
    (m.load p).Mirrors
      { w with store := (w.store.routine ((reading.script unit).main unit)).2 } := by
  obtain ⟨hmain, hstrings⟩ := reading.main hp
  -- texts, natives and functions are made one after the other, on both sides in the same order
  have htexts : (p.strings.foldl Machine.intern m.reset).Mirrors
      (p.strings.foldl World.intern ⟨[], {}, [], m.sink⟩) := by
    refine List.foldl_rel ⟨⟨Heap.canonical_empty, .nil⟩, rfl, rfl⟩ ?_
    intro text _ k v hkv
    exact hkv.intern text
  have hhost : (p.strings.foldl Machine.intern m.reset).host = m.host := by
    have hfold := List.foldl_rel (l := p.strings) (f := Machine.intern) (g := fun _ _ => ())
      (r := fun k _ => k.host = m.host) (a := m.reset) (b := ()) rfl (fun _ _ _ _ hk => hk)
    exact hfold
  have hnatives := foldl_table_rel (fun (k : Machine) (v : World) => k.Mirrors v ∧ k.host = m.host)
    m.host.natives (f := fun k name n => k.bind name (.native n))
    (g := fun v name n => v.bind name (v.store.native n))
    ⟨htexts, hhost⟩ (by
      rintro name n - k v ⟨hkv, hk⟩
      exact ⟨hkv.bindNative name n, hk⟩)
  have hbound := foldl_table_rel (fun (k : Machine) (v : World) => k.Mirrors v ∧ k.host = m.host)
    m.host.scripts (f := fun k name f => k.bind name (.function f))
    (g := World.bindRoutine reading.script) hnatives (by
      rintro name f hf k v ⟨hkv, hk⟩
      -- a function of the host is compiled from one of its library
      obtain ⟨r, hr, hcompiled⟩ := reading.routine (hfrom name f hf)
      rw [World.bindRoutine, hr]
      exact ⟨hkv.bindRoutine name hcompiled, hk⟩)
  have hload : (p.strings.foldl Machine.intern m.reset).bindHost.Mirrors w := by
    rw [hw, ← hstrings, World.start]
    unfold Machine.bindHost
    dsimp only
    rw [hhost, hnatives.2]
    exact hbound.1
  exact ⟨(hload.heap.routine hmain).2, hload.globals, hload.sink⟩

end EntityScript
