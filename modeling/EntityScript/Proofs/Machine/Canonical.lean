/-
# The life of a heap

Texts and functions are asked for, objects are put in, and now and then the heap is emptied.
Whatever is done, and in whatever order, the heap stays canonical (`heap_stays_canonical`): each of
its two tables knows exactly the objects of its kind, so that two references to strings or to
compiled functions show the same thing only if they are the same reference.
-/
import EntityScript.Proofs.Machine.Heap

namespace EntityScript

/-- An object that is told from others by a number of its own and not by a table. -/
def Object.isNative : Object → Bool
  | .native _ => true
  | _ => false

namespace Heap

/-- What can be done to a heap.  Texts are values, so a text that is made while a script runs is
asked for in the same way as one that is written in it. -/
inductive Operation where
  | intern (text : String)
  | function (f : Function)
  | alloc (object : Object)
  /-- Forgets all objects. -/
  | clear

/-- The object that an operation asks for. -/
def Operation.object? : Operation → Option Object
  | .intern text => some (.string text)
  | .function f => some (.function f)
  | .alloc object => some object
  | .clear => none

/-- The reference that an operation gives, and the heap afterwards. -/
def perform (h : Heap) : Operation → Option Ref × Heap
  | .intern text => ((h.intern text).1, (h.intern text).2)
  | .function f => ((h.function f).1, (h.function f).2)
  | .alloc object => ((h.alloc object).1, (h.alloc object).2)
  | .clear => (none, .empty)

/-- The heap after operations, one after the other. -/
def performAll (h : Heap) (os : List Operation) : Heap :=
  os.foldl (fun h o => (h.perform o).2) h

/-! ## One operation -/

section

variable {h : Heap}

/-- An object that is put into a heap is found there, or one that is the same. -/
theorem alloc_spec (hc : h.Canonical) (object : Object) :
    (∃ found, (h.alloc object).2.get? (h.alloc object).1 = some found ∧ found.same object = true) ∧
      (h.alloc object).2.Canonical ∧ Extends h (h.alloc object).2 := by
  cases object with
  | string text =>
    obtain ⟨hget, hspec⟩ := intern_spec hc text
    exact ⟨⟨_, hget, by simp [Object.same]⟩, hspec⟩
  | function f =>
    obtain ⟨⟨g, hid, hget, -⟩, hspec⟩ := function_spec hc f
    exact ⟨⟨_, hget, by simp [Object.same, hid]⟩, hspec⟩
  | native n =>
    obtain ⟨hget, hspec⟩ := native_spec hc n
    exact ⟨⟨_, hget, by simp [Object.same]⟩, hspec⟩

/-- Every operation but the one that empties the heap is a way to put an object into it. -/
theorem perform_eq_alloc {o : Operation} {object : Object} (ho : o.object? = some object) :
    h.perform o = (some (h.alloc object).1, (h.alloc object).2) := by
  cases o with
  | intern | function | alloc =>
    obtain rfl := Option.some.inj ho
    rfl
  | clear => cases ho

theorem object?_eq_none_iff {o : Operation} : o.object? = none ↔ o = .clear := by
  cases o <;> simp [Operation.object?]

/-- One operation keeps a heap canonical. -/
theorem Canonical.perform (hc : h.Canonical) (o : Operation) : (h.perform o).2.Canonical := by
  cases ho : o.object? with
  | none =>
    rw [object?_eq_none_iff.mp ho]
    exact canonical_empty
  | some object =>
    rw [perform_eq_alloc ho]
    exact (alloc_spec hc object).2.1

/-- One operation other than clearing changes no object that is there. -/
theorem extends_perform (hc : h.Canonical) {o : Operation} (ho : o ≠ .clear) :
    Extends h (h.perform o).2 := by
  obtain ⟨object, hobject⟩ := Option.ne_none_iff_exists'.mp (mt object?_eq_none_iff.mp ho)
  rw [perform_eq_alloc hobject]
  exact (alloc_spec hc object).2.2

/-! ## All operations -/

/-- A heap stays canonical, whatever is done to it. -/
theorem Canonical.performAll (hc : h.Canonical) (os : List Operation) :
    (h.performAll os).Canonical := by
  induction os generalizing h with
  | nil => exact hc
  | cons o os ih => exact ih (hc.perform o)

/-- Until the heap is emptied all objects stay where they are. -/
theorem extends_performAll (hc : h.Canonical) {os : List Operation} (hos : .clear ∉ os) :
    Extends h (h.performAll os) := by
  induction os generalizing h with
  | nil => exact .refl h
  | cons o os ih =>
    rw [List.mem_cons, not_or] at hos
    exact (extends_perform hc (Ne.symm hos.1)).trans (ih (hc.perform o) hos.2)

/-! ## Equality -/

/-- Natives apart, no two references show the same object. -/
theorem Canonical.same_iff (hc : h.Canonical) {a b : Ref} {x y : Object} (ha : h.get? a = some x)
    (hb : h.get? b = some y) (hx : x.isNative = false) (hy : y.isNative = false) :
    x.same y = true ↔ a = b := by
  constructor
  · intro hsame
    cases x with
    | string s =>
      cases y with
      | string t =>
        obtain rfl := beq_iff_eq.mp hsame
        exact hc.eq_of_string ha hb
      | function g => cases hsame
      | native n => cases hsame
    | function f =>
      cases y with
      | string t => cases hsame
      | function g => exact hc.eq_of_function (beq_iff_eq.mp hsame) ha hb
      | native n => cases hsame
    | native n => cases hx
  · rintro rfl
    obtain rfl := Option.some.inj (ha.symm.trans hb)
    cases x with
    | string s => simp [Object.same]
    | function f => simp [Object.same]
    | native n => cases hx

end

end Heap

/-- Whatever has been done to a heap that was empty at first, its two tables know exactly the
strings, each by its text, and the compiled functions, each by its number.  A further operation
gives a reference to what it asks for, and until the heap is emptied every reference keeps its
object.  Two references to strings or compiled functions are equal values only if they are the
same. -/
theorem heap_stays_canonical (os : List Heap.Operation) :
    (∀ text ref, (Heap.empty.performAll os).strings[text]? = some ref ↔
      (Heap.empty.performAll os).get? ref = some (.string text)) ∧
    (∀ id ref, (Heap.empty.performAll os).functions[id]? = some ref ↔
      ∃ f, f.id = id ∧ (Heap.empty.performAll os).get? ref = some (.function f)) ∧
    (∀ o : Heap.Operation, ∀ object, o.object? = some object → ∃ ref found,
      ((Heap.empty.performAll os).perform o).1 = some ref ∧
      ((Heap.empty.performAll os).perform o).2.get? ref = some found ∧ found.same object = true) ∧
    (∀ later, Heap.Operation.clear ∉ later → ∀ ref object,
      (Heap.empty.performAll os).get? ref = some object →
      (Heap.empty.performAll (os ++ later)).get? ref = some object) ∧
    ∀ a b x y, (Heap.empty.performAll os).get? a = some x →
    (Heap.empty.performAll os).get? b = some y →
      x.isNative = false → y.isNative = false →
      ((Heap.empty.performAll os).equal (.object a) (.object b) = true ↔ a = b) := by
  have hc := Heap.canonical_empty.performAll os
  refine ⟨hc.strings, hc.functions, fun o object ho => ?_, fun later hlater ref object hget => ?_,
    fun a b x y ha hb hx hy => ?_⟩
  · obtain ⟨⟨found, hget, hsame⟩, -⟩ := Heap.alloc_spec hc object
    rw [Heap.perform_eq_alloc ho]
    exact ⟨_, found, rfl, hget, hsame⟩
  · rw [Heap.performAll, List.foldl_append]
    exact Heap.extends_performAll hc hlater ref object hget
  · rw [Heap.equal, ha, hb]
    exact hc.same_iff ha hb hx hy

end EntityScript
