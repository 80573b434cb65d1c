/-
# Two sides of a library

On one side a program has the functions of a library among its own, on the other side the library
belongs to the host.  The functions on the two sides have the same shape, and the values are the
same, apart from the numbers of the objects (`Sides.correspondence`).  The main function of the
first side has some code in front, and is never seen as a value.
-/
import EntityScript.Proofs.Code.Shape
import EntityScript.Proofs.Machine.Alignment
import EntityScript.Proofs.Machine.Lockstep
import EntityScript.Proofs.Machine.Numbering

namespace EntityScript

/-- What there is on the two sides of a library. -/
structure Sides where
  /-- The number on the second side of a function of the first. -/
  renamed : FunctionId → FunctionId
  /-- The numbers of functions that the first side can have. -/
  known : FunctionId → Prop
  lib : Library
  lib' : Library
  host : Host
  host' : Host
  /-- The object number of the first native. -/
  base : Nat
  base' : Nat

namespace Sides

/-- Different functions are called differently on the second side, and the numbers of objects do not
matter to the natives. -/
structure Fair (S : Sides) : Prop where
  injective : ∀ {a b}, S.known a → S.known b → S.renamed a = S.renamed b → a = b
  equivariant : S.host.Equivariant

/-- Functions that are the same on both sides. -/
structure SameFunction (S : Sides) (f f' : Function) : Prop where
  shape : f.shape S.renamed = f'.shape id
  known : ∀ g ∈ f.family, S.known g.id
  holds : S.lib.Holds f
  holds' : S.lib'.Holds f'

/-- A function that goes on from the place `d` as another does from its start. -/
structure Continues (S : Sides) (d : Nat) (f f' : Function) : Prop where
  code : (codeShape S.renamed f.chunk.literals f.chunk.code.toList).drop d =
    codeShape id f'.chunk.literals f'.chunk.code.toList
  name : f'.name = f.name
  known : ∀ g ∈ Literal.familyAll f.chunk.literals, S.known g.id
  holds : S.lib.Holds f
  holds' : S.lib'.Holds f'

/-- Literals that are the same on both sides. -/
inductive SameLiteral (S : Sides) : Literal → Literal → Prop where
  | plain {l : Literal} : l.function? = none → SameLiteral S l l
  | function {f f' : Function} : S.SameFunction f f' → SameLiteral S (.function f) (.function f')

/-- Numbers of objects that are the same: texts, functions that are the same on both sides, or
natives that were made in the same place. -/
inductive SameObject (S : Sides) (h h' : Heap) : Nat → Nat → Prop where
  | string {i j : Nat} {text : String} : h.get? ⟨i⟩ = some (.string text) →
    h'.get? ⟨j⟩ = some (.string text) →
    SameObject S h h' i j
  | native {i : Nat} {n : Native} : h.get? ⟨S.base + i⟩ = some (.native n) →
    h'.get? ⟨S.base' + i⟩ = some (.native n) →
    SameObject S h h' (S.base + i) (S.base' + i)
  | function {i j : Nat} {f f' : Function} : h.get? ⟨i⟩ = some (.function f) →
    h'.get? ⟨j⟩ = some (.function f') →
    S.SameFunction f f' → SameObject S h h' i j

/-- Heaps with functions of the libraries and natives of the hosts. -/
structure SameHeap (S : Sides) (h h' : Heap) : Prop where
  known : h.Known S.lib S.host
  known' : h'.Known S.lib' S.host'

/-- Machines on the two sides.  What nothing looks at, at the bottom of the stack, is the main
function. -/
def correspondence (S : Sides) : Correspondence where
  function := S.SameFunction
  native n := n.Equivariant
  literal := S.SameLiteral
  place f i f' i' := ∃ d, i = i' + d ∧ S.Continues d f f'
  heap := S.SameHeap
  value h h' := Value.Renumbered (S.SameObject h h')
  trace a b := b.function = a.function
  hidden := 1

section

variable {S : Sides} {f f' g g' : Function} {h h' k k' : Heap} {i j : Nat}

namespace SameFunction

/-- Functions that are the same have the same name. -/
theorem name (hf : S.SameFunction f f') : f'.name = f.name := by
  have hshape := hf.shape
  rw [Function.shape_eq, Function.shape_eq] at hshape
  exact (Shape.function.inj hshape).2.1.symm

theorem arity (hf : S.SameFunction f f') : f'.arity = f.arity := by
  have hshape := hf.shape
  rw [Function.shape_eq, Function.shape_eq] at hshape
  exact (Shape.function.inj hshape).2.2.1.symm

theorem id_eq (hf : S.SameFunction f f') : f'.id = S.renamed f.id := by
  have hshape := hf.shape
  rw [Function.shape_eq, Function.shape_eq] at hshape
  exact (Shape.function.inj hshape).1.symm

theorem id_iff (hf : S.SameFunction f f') (hg : S.SameFunction g g') (fair : S.Fair) :
    f'.id = g'.id ↔ f.id = g.id := by
  rw [hf.id_eq, hg.id_eq]
  refine ⟨fun heq => ?_, congrArg S.renamed⟩
  exact fair.injective (hf.known f f.self_mem_family) (hg.known g g.self_mem_family) heq

theorem continues (hf : S.SameFunction f f') : S.Continues 0 f f' := by
  have hshape := hf.shape
  rw [Function.shape_eq, Function.shape_eq] at hshape
  refine ⟨(Shape.function.inj hshape).2.2.2, hf.name, fun g hg => hf.known g ?_,
    hf.holds, hf.holds'⟩
  rw [f.family_eq]
  exact List.mem_cons_of_mem _ hg

end SameFunction

/-- Literals of the same shape are the same on both sides. -/
theorem sameLiteral_of_shape {l l' : Literal} (hl : l.shape S.renamed = l'.shape id)
    (hknown : ∀ g ∈ l.family, S.known g.id) (hholds : ∀ f, l = .function f → S.lib.Holds f)
    (hholds' : ∀ f, l' = .function f → S.lib'.Holds f) : S.SameLiteral l l' := by
  cases l with
  | function f =>
    cases l' with
    | function f' => exact .function ⟨hl, hknown, hholds f rfl, hholds' f' rfl⟩
    | int | float | string =>
      rw [Literal.shape, Literal.shape, Function.shape_eq] at hl
      cases hl
  | int | float | string =>
    cases l' with
    | function f' =>
      rw [Literal.shape, Literal.shape, Function.shape_eq] at hl
      cases hl
    | int | float | string => cases hl <;> exact .plain rfl

/-! ## Objects -/

/-- An object is the same as one other object only. -/
theorem SameObject.unique (fair : S.Fair) (hheap : S.SameHeap h h') {i' j' : Nat}
    (hij : S.SameObject h h' i j) (hij' : S.SameObject h h' i' j') : i = i' ↔ j = j' := by
  -- objects of different kinds are in different places
  have hapart {k : Heap} {a b : Nat} {o u : Object} (ho : k.get? ⟨a⟩ = some o)
      (hu : k.get? ⟨b⟩ = some u) (hne : o ≠ u) : a ≠ b := by
    rintro rfl
    exact hne (Option.some.inj (ho.symm.trans hu))
  cases hij with
  | string ho ho' =>
    cases hij' with
    | string hu hu' =>
      constructor
      · rintro rfl
        cases hu.symm.trans ho
        exact congrArg Ref.index (hheap.known'.canonical.eq_of_string ho' hu')
      · rintro rfl
        cases hu'.symm.trans ho'
        exact congrArg Ref.index (hheap.known.canonical.eq_of_string ho hu)
    | native hu hu' | function hu hu' =>
      exact iff_of_false (hapart ho hu nofun) (hapart ho' hu' nofun)
  | native ho ho' =>
    cases hij' with
    | native => rw [Nat.add_left_cancel_iff, Nat.add_left_cancel_iff]
    | string hu hu' | function hu hu' =>
      exact iff_of_false (hapart ho hu nofun) (hapart ho' hu' nofun)
  | function ho ho' hf =>
    cases hij' with
    | function hu hu' hg =>
      constructor
      · rintro rfl
        cases hu.symm.trans ho
        have hid := (hf.id_iff hg fair).mpr rfl
        exact congrArg Ref.index (hheap.known'.canonical.eq_of_function hid ho' hu')
      · rintro rfl
        cases hu'.symm.trans ho'
        have hid := (hf.id_iff hg fair).mp rfl
        exact congrArg Ref.index (hheap.known.canonical.eq_of_function hid ho hu)
    | string hu hu' | native hu hu' =>
      exact iff_of_false (hapart ho hu nofun) (hapart ho' hu' nofun)

/-- Objects that are the same stay so while the heaps grow. -/
theorem SameObject.mono (hx : h.Extends k) (hx' : h'.Extends k') (hij : S.SameObject h h' i j) :
    S.SameObject k k' i j := by
  cases hij with
  | string ho ho' => exact .string (hx _ _ ho) (hx' _ _ ho')
  | native ho ho' => exact .native (hx _ _ ho) (hx' _ _ ho')
  | function ho ho' hf => exact .function (hx _ _ ho) (hx' _ _ ho') hf

theorem grows (hx : h.Extends k) (hx' : h'.Extends k') (hheap : S.SameHeap k k') :
    S.correspondence.Grows h h' k k' := by
  refine ⟨hheap, fun v v' hv => ?_⟩
  cases hv with
  | plain hplain => exact .plain hplain
  | object hij => exact .object (hij.mono hx hx')

/-- Values with objects that are the same stand for each other. -/
theorem stands (fair : S.Fair) (hheap : S.SameHeap h h') {v v' : Value}
    (hv : Value.Renumbered (S.SameObject h h') v v') : S.correspondence.Stands h h' v v' := by
  cases hv with
  | plain hplain => exact .plain hplain
  | object hij =>
    cases hij with
    | string ho ho' => exact .object ho ho' (.string _)
    | native ho ho' =>
      obtain ⟨name, hname⟩ := hheap.known.natives _ _ ho
      exact .object ho ho' (.native (fair.equivariant name _ hname))
    | function ho ho' hf => exact .object ho ho' (.function hf)

/-- Literals that are the same make objects that are. -/
theorem load (hheap : S.SameHeap h h') {l l' : Literal} (hl : S.SameLiteral l l') :
    S.correspondence.Grows h h' (h.literal l).2 (h'.literal l').2 ∧
      Value.Renumbered (S.SameObject (h.literal l).2 (h'.literal l').2) (h.literal l).1
      (h'.literal l').1 := by
  cases hl with
  | @function f f' hf =>
    obtain ⟨hknown, hget⟩ := hheap.known.function hf.holds
    obtain ⟨hknown', hget'⟩ := hheap.known'.function hf.holds'
    have hx := (Heap.function_spec hheap.known.canonical f).2.2
    have hx' := (Heap.function_spec hheap.known'.canonical f').2.2
    exact ⟨grows hx hx' ⟨hknown, hknown'⟩, .object (.function hget hget' hf)⟩
  | @plain l hl =>
    cases l with
    | function => cases hl
    | int | float => exact ⟨grows (.refl h) (.refl h') hheap, .plain rfl⟩
    | string text =>
      obtain ⟨hget, -, hx⟩ := Heap.intern_spec hheap.known.canonical text
      obtain ⟨hget', -, hx'⟩ := Heap.intern_spec hheap.known'.canonical text
      exact ⟨grows hx hx' ⟨hheap.known.intern text, hheap.known'.intern text⟩,
        .object (.string hget hget')⟩

/-- The two sides go through the same steps. -/
theorem lawful (fair : S.Fair) : S.correspondence.Lawful where
  id_iff hf hg := SameFunction.id_iff hf hg fair
  name hf := SameFunction.name hf
  arity hf := SameFunction.arity hf
  start hf := ⟨0, rfl, SameFunction.continues hf⟩
  traced hab := hab
  stands := by
    intro h h' v v' hheap hv
    exact stands fair hheap hv
  plain := .plain
  text text := .plain rfl
  load := by
    intro h h' l l' hheap hl
    exact load hheap hl
  answer := by
    intro h h' n vs vs' hn hheap hvs
    have hagree := Native.Equivariant.answers hn
      (fun hij hij' => SameObject.unique fair hheap hij hij') hvs
    generalize n.call vs = r at hagree
    generalize n.call vs' = r' at hagree
    cases hagree with
    | ok hv => exact .ok hv
    | error message => exact .error message
  hidden_le := Nat.le_refl 1

end

end Sides

end EntityScript
