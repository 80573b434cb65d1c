/-
# The heap as a growing list of objects

Objects stay where they are, so a heap only grows (`Heap.Extends`).  In a canonical heap the two
tables know exactly the strings and the functions among the objects: each text has at most one
object, and each function too.
-/
import EntityScript.Heap
import Mathlib.Tactic.Common

namespace EntityScript

/-! ## The order of function numbers -/

/-- Functions are ordered by their compilation, and then by their number in it. -/
theorem FunctionId.compare_eq :
    (compare : FunctionId → FunctionId → Ordering) =
      compareLex (compareOn FunctionId.unit) (compareOn FunctionId.serial) := by
  funext a b
  show (compare a.unit b.unit).then ((compare a.serial b.serial).then .eq) = _
  rw [compareLex, compareOn, compareOn]
  cases compare a.serial b.serial <;> rfl

instance : Std.TransOrd FunctionId := by
  show Std.TransCmp (compare : FunctionId → FunctionId → Ordering)
  rw [FunctionId.compare_eq]
  infer_instance

instance : Std.LawfulEqOrd FunctionId where
  compare_self := by
    intro a
    show (compare a.unit a.unit).then ((compare a.serial a.serial).then .eq) = .eq
    simp
  eq_of_compare := by
    intro a b h
    have hthen : (compare a.unit b.unit).then ((compare a.serial b.serial).then .eq) = .eq := h
    rw [Ordering.then_eq_eq, Ordering.then_eq_eq] at hthen
    have hunit : a.unit = b.unit := Std.LawfulEqOrd.eq_of_compare hthen.1
    have hserial : a.serial = b.serial := Std.LawfulEqOrd.eq_of_compare hthen.2.1
    cases a
    cases b
    simp_all

namespace Heap

/-- Every object of the first heap is in the second, under the same reference. -/
def Extends (h h' : Heap) : Prop :=
  ∀ ref object, h.get? ref = some object → h'.get? ref = some object

theorem Extends.refl (h : Heap) : Extends h h :=
  fun _ _ ho => ho

theorem Extends.trans {a b c : Heap} (h : Extends a b) (k : Extends b c) : Extends a c :=
  fun ref object ho => k ref object (h ref object ho)

/-- The tables know the strings and the functions of the heap. -/
structure Canonical (h : Heap) : Prop where
  strings : ∀ text ref, h.strings[text]? = some ref ↔ h.get? ref = some (.string text)
  functions : ∀ id ref, h.functions[id]? = some ref ↔ ∃ f, f.id = id ∧
    h.get? ref = some (.function f)

/-- A text has one reference only. -/
theorem Canonical.eq_of_string {h : Heap} (hc : h.Canonical) {a b : Ref} {text : String}
    (ha : h.get? a = some (.string text)) (hb : h.get? b = some (.string text)) : a = b := by
  rw [← hc.strings] at ha hb
  exact Option.some.inj (ha.symm.trans hb)

/-- A function has one reference only. -/
theorem Canonical.eq_of_function {h : Heap} (hc : h.Canonical) {a b : Ref} {f g : Function}
    (hid : f.id = g.id) (ha : h.get? a = some (.function f)) (hb : h.get? b = some (.function g)) :
    a = b := by
  have ha' := (hc.functions f.id a).mpr ⟨f, rfl, ha⟩
  have hb' := (hc.functions f.id b).mpr ⟨g, hid.symm, hb⟩
  exact Option.some.inj (ha'.symm.trans hb')

/-- What is in the heap after one more object. -/
theorem get?_push (h : Heap) (object : Object) (strings : Std.TreeMap String Ref)
    (functions : Std.TreeMap FunctionId Ref) (ref : Ref) :
    get? ⟨h.objects.push object, strings, functions⟩ ref =
      if ref = h.nextRef then some object else h.get? ref := by
  obtain ⟨i⟩ := ref
  rw [get?, Array.getElem?_push, get?, nextRef]
  by_cases hi : i = h.objects.size
  · rw [if_pos hi, if_pos (by rw [hi])]
  · rw [if_neg hi, if_neg (fun heq => hi (Ref.mk.inj heq))]

/-- There is nothing yet where the next object will be. -/
theorem get?_nextRef (h : Heap) : h.get? h.nextRef = none := by
  rw [get?, nextRef]
  exact Array.getElem?_eq_none (Nat.le_refl _)

/-- A heap with one object more, whatever its tables know of it. -/
theorem extends_push (h : Heap) (object : Object) (strings : Std.TreeMap String Ref)
    (functions : Std.TreeMap FunctionId Ref) :
    Extends h ⟨h.objects.push object, strings, functions⟩ := by
  intro ref o hget
  rw [get?_push, if_neg]
  · exact hget
  · rintro rfl
    rw [get?_nextRef] at hget
    cases hget

theorem canonical_empty : Canonical empty := by
  constructor <;> simp [empty, get?]

/-- Asking for a string gives a reference to it. -/
theorem intern_spec {h : Heap} (hc : h.Canonical) (text : String) :
    (h.intern text).2.get? (h.intern text).1 = some (.string text) ∧
      (h.intern text).2.Canonical ∧ Extends h (h.intern text).2 := by
  cases hs : h.strings[text]? with
  | some ref =>
    rw [intern, hs]
    exact ⟨(hc.strings text ref).mp hs, hc, .refl h⟩
  | none =>
    rw [intern, hs]
    refine ⟨?_, ⟨?_, ?_⟩, extends_push _ _ _ _⟩
    · rw [get?_push, if_pos rfl]
    · intro t ref
      rw [get?_push, Std.TreeMap.getElem?_insert]
      by_cases ht : text = t
      · subst ht
        rw [if_pos Std.ReflCmp.compare_self]
        by_cases href : ref = h.nextRef
        · simp [href]
        · rw [if_neg href, ← hc.strings, hs]
          simpa using Ne.symm href
      · rw [if_neg (fun heq => ht (Std.LawfulEqOrd.eq_of_compare heq))]
        by_cases href : ref = h.nextRef
        · rw [if_pos href, hc.strings, href, get?_nextRef]
          simp [ht]
        · rw [if_neg href, hc.strings]
    · intro id ref
      rw [get?_push, hc.functions]
      by_cases href : ref = h.nextRef
      · rw [if_pos href, href, get?_nextRef]
        simp
      · rw [if_neg href]

/-- Asking for a function gives a reference to the function with its number. -/
theorem function_spec {h : Heap} (hc : h.Canonical) (f : Function) :
    (∃ g, g.id = f.id ∧ (h.function f).2.get? (h.function f).1 = some (.function g) ∧
      (g = f ∨ h.get? (h.function f).1 = some (.function g))) ∧
      (h.function f).2.Canonical ∧ Extends h (h.function f).2 := by
  cases hs : h.functions[f.id]? with
  | some ref =>
    rw [function, hs]
    obtain ⟨g, hid, hg⟩ := (hc.functions f.id ref).mp hs
    exact ⟨⟨g, hid, hg, .inr hg⟩, hc, .refl h⟩
  | none =>
    rw [function, hs]
    refine ⟨⟨f, rfl, ?_, .inl rfl⟩, ⟨?_, ?_⟩, extends_push _ _ _ _⟩
    · rw [get?_push, if_pos rfl]
    · intro t ref
      rw [get?_push, hc.strings]
      by_cases href : ref = h.nextRef
      · rw [if_pos href, href, get?_nextRef]
        simp
      · rw [if_neg href]
    · intro id ref
      rw [get?_push, Std.TreeMap.getElem?_insert]
      by_cases hid : f.id = id
      · subst hid
        rw [if_pos Std.ReflCmp.compare_self]
        by_cases href : ref = h.nextRef
        · simp [href]
        · rw [if_neg href, ← hc.functions, hs]
          simpa using Ne.symm href
      · rw [if_neg (fun heq => hid (Std.LawfulEqOrd.eq_of_compare heq))]
        by_cases href : ref = h.nextRef
        · rw [if_pos href, hc.functions, href, get?_nextRef]
          simp [hid]
        · rw [if_neg href, hc.functions]

/-- Making a native gives the native, and keeps the heap canonical. -/
theorem native_spec {h : Heap} (hc : h.Canonical) (n : Native) :
    (h.native n).2.get? (h.native n).1 = some (.native n) ∧
      (h.native n).2.Canonical ∧ Extends h (h.native n).2 := by
  rw [native]
  refine ⟨?_, ⟨?_, ?_⟩, extends_push _ _ _ _⟩
  · rw [get?_push, if_pos rfl]
  · intro t ref
    rw [get?_push, hc.strings]
    by_cases href : ref = h.nextRef
    · rw [if_pos href, href, get?_nextRef]
      simp
    · rw [if_neg href]
  · intro id ref
    rw [get?_push, hc.functions]
    by_cases href : ref = h.nextRef
    · rw [if_pos href, href, get?_nextRef]
      simp
    · rw [if_neg href]

/-! ## What is new in a heap -/

/-- Making a text adds that text, if anything. -/
theorem get?_intern {h : Heap} {text : String} {ref : Ref} {object : Object}
    (hget : (h.intern text).2.get? ref = some object) :
    h.get? ref = some object ∨ object = .string text := by
  rw [intern] at hget
  cases hs : h.strings[text]? with
  | some r =>
    rw [hs] at hget
    exact .inl hget
  | none =>
    simp only [hs, get?_push] at hget
    split at hget
    · exact .inr (Option.some.inj hget).symm
    · exact .inl hget

/-- Making a function adds that function, if anything. -/
theorem get?_function {h : Heap} {f : Function} {ref : Ref} {object : Object}
    (hget : (h.function f).2.get? ref = some object) :
    h.get? ref = some object ∨ object = .function f := by
  rw [function] at hget
  cases hs : h.functions[f.id]? with
  | some r =>
    rw [hs] at hget
    exact .inl hget
  | none =>
    simp only [hs, get?_push] at hget
    split at hget
    · exact .inr (Option.some.inj hget).symm
    · exact .inl hget

/-- Making a native adds that native. -/
theorem get?_native {h : Heap} {n : Native} {ref : Ref} {object : Object}
    (hget : (h.native n).2.get? ref = some object) :
    h.get? ref = some object ∨ object = .native n := by
  simp only [native, get?_push] at hget
  split at hget
  · exact .inr (Option.some.inj hget).symm
  · exact .inl hget

/-- The references within the size of a heap are those with an object. -/
theorem lt_size_iff {h : Heap} {ref : Ref} :
    ref.index < h.size ↔ ∃ object, h.get? ref = some object := by
  constructor
  · intro hlt
    exact ⟨h.objects[ref.index], Array.getElem?_eq_getElem hlt⟩
  · rintro ⟨object, hget⟩
    exact (Array.getElem?_eq_some_iff.mp hget).1

theorem Extends.lt_size {h h' : Heap} (hx : Extends h h') {ref : Ref} (hlt : ref.index < h.size) :
    ref.index < h'.size := by
  obtain ⟨object, hget⟩ := lt_size_iff.mp hlt
  exact lt_size_iff.mpr ⟨object, hx ref object hget⟩

end Heap

/-! ## Tables -/

/-- What holds between two states while both go through the entries of a table. -/
theorem foldl_table_rel {α σ τ : Type} (R : σ → τ → Prop) (t : Std.TreeMap String α)
    {f : σ → String → α → σ} {g : τ → String → α → τ} {x : σ} {y : τ} (h : R x y)
    (hstep : ∀ name a, t[name]? = some a → ∀ x y, R x y → R (f x name a) (g y name a)) :
    R (t.foldl f x) (t.foldl g y) := by
  rw [Std.TreeMap.foldl_eq_foldl_toList, Std.TreeMap.foldl_eq_foldl_toList]
  refine List.foldl_rel h ?_
  rintro ⟨name, a⟩ he x y hxy
  exact hstep name a (Std.TreeMap.mem_toList_iff_getElem?_eq_some.mp he) x y hxy

end EntityScript
