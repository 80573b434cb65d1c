/-
# Natives and the numbers of objects

A reference is the number of an object, and which number an object gets depends on what was made
before it.  A native is equivariant if it commutes with renumbering: with other numbers in its
arguments it gives the same answer, with these numbers in it (`Native.Equivariant`).  It can tell
objects apart, but it cannot make any up (`Native.Equivariant.mem_arguments`).  So it answers in the
same way wherever its arguments are the same, whatever their numbers are
(`Native.Equivariant.answers`).  Not every native is like that: one that gives the number of its
argument (`Native.objectNumber`) is a function of its arguments all the same.
-/
import EntityScript.Host.Builtins
import EntityScript.Proofs.Value.Plain
import Mathlib.Data.List.Forall2
import Mathlib.Logic.Equiv.Basic

namespace EntityScript

/-- A value whose object has another number. -/
def Value.renumbered (π : Equiv.Perm Nat) : Value → Value
  | .object ref => .object ⟨π ref.index⟩
  | v => v

/-- A native to which the numbers of objects do not matter. -/
def Native.Equivariant (n : Native) : Prop :=
  ∀ (π : Equiv.Perm Nat) vs, n.call (vs.map (Value.renumbered π)) =
    (n.call vs).map (Value.renumbered π)

/-- A native that gives the number of its argument.  It is not equivariant. -/
def Native.objectNumber : Native where
  name := "number"
  arity := some 1
  edition := 0
  call
    | [.object ref] => .ok (.int (Int64.ofNat ref.index))
    | _ => .error "not an object"

/-- The numbers of objects do not matter to any native of a host. -/
def Host.Equivariant (host : Host) : Prop :=
  ∀ (name : String) (n : Native), host.natives[name]? = some n → n.Equivariant

section

variable {π : Equiv.Perm Nat} {n : Native} {v v' : Value} {vs vs' : List Value}

/-- A value that is no object stays the same when objects are renumbered. -/
theorem Value.renumbered_plain (h : v.isObject = false) : v.renumbered π = v := by
  cases v with
  | object => cases h
  | nil | bool | int | float | vector | point => rfl

/-- Some numbers are too great to be in a list of values. -/
theorem exists_unused (vs : List Value) : ∃ n, ∀ i, n ≤ i → .object ⟨i⟩ ∉ vs := by
  induction vs with
  | nil => exact ⟨0, fun _ _ => List.not_mem_nil⟩
  | cons v vs ih =>
    obtain ⟨n, hn⟩ := ih
    obtain ⟨k, hk⟩ : ∃ k, ∀ i, k ≤ i → v ≠ .object ⟨i⟩ := by
      cases v with
      | object ref =>
        refine ⟨ref.index + 1, fun i hi heq => ?_⟩
        rw [Value.object.inj heq] at hi
        exact absurd hi (Nat.not_succ_le_self i)
      | nil | bool | int | float | vector | point => exact ⟨0, fun _ _ => nofun⟩
    refine ⟨max n k, fun i hi hmem => ?_⟩
    rcases List.mem_cons.mp hmem with heq | hmem
    · exact hk i (by omega) heq.symm
    · exact hn i (by omega) hmem

/-- An equivariant native gives a plain value or one of its arguments. -/
theorem Native.Equivariant.mem_arguments (h : n.Equivariant) (hv : n.call vs = .ok v) :
    v.isObject = false ∨ v ∈ vs := by
  cases v with
  | nil | bool | int | float | vector | point => exact .inl rfl
  | object ref =>
    by_contra hnone
    obtain ⟨-, hnew⟩ := not_or.mp hnone
    obtain ⟨k, hk⟩ := exists_unused vs
    -- another number that is not among the arguments
    let other := k + ref.index + 1
    have hsame : vs.map (Value.renumbered (Equiv.swap ref.index other)) = vs := by
      refine (List.map_congr_left fun u hu => ?_).trans (List.map_id vs)
      cases u with
      | nil | bool | int | float | vector | point => rfl
      | object r =>
        have hne : r.index ≠ ref.index := by
          intro heq
          have hmem : .object ⟨ref.index⟩ ∈ vs := heq ▸ hu
          exact hnew hmem
        have hne' : r.index ≠ other := by
          intro heq
          have hmem : .object ⟨other⟩ ∈ vs := heq ▸ hu
          exact hk other (by omega) hmem
        rw [Value.renumbered, Equiv.swap_apply_of_ne_of_ne hne hne']
        rfl
    have hcall := h (Equiv.swap ref.index other) vs
    rw [hsame, hv] at hcall
    have hindex : ref.index = Equiv.swap ref.index other ref.index :=
      congrArg Ref.index (Value.object.inj (Except.ok.inj hcall))
    rw [Equiv.swap_apply_left] at hindex
    omega

/-! ## Arguments that are the same -/

/-- Values that are the same, apart from the numbers of objects, which are related. -/
inductive Value.Renumbered (R : Nat → Nat → Prop) : Value → Value → Prop where
  | plain {v : Value} : v.isObject = false → Renumbered R v v
  | object {i j : Nat} : R i j → Renumbered R (.object ⟨i⟩) (.object ⟨j⟩)

/-- Numbers that belong together in one way only can be exchanged for each other. -/
theorem exists_renumbering {R : Nat → Nat → Prop}
    (hR : ∀ {i j i' j'}, R i j → R i' j' → (i = i' ↔ j = j'))
    (h : List.Forall₂ (Value.Renumbered R) vs vs') :
    ∃ π : Equiv.Perm Nat, ∀ v v', v ∈ vs → Value.Renumbered R v v' → v.renumbered π = v' := by
  induction h with
  | nil => exact ⟨.refl _, fun _ _ hmem => absurd hmem List.not_mem_nil⟩
  | @cons v v' vs vs' hv _ ih =>
    obtain ⟨π, hπ⟩ := ih
    cases hv with
    | plain hplain =>
      refine ⟨π, fun u u' hu huu' => ?_⟩
      rcases List.mem_cons.mp hu with rfl | hu
      · cases huu' with
        | plain => exact Value.renumbered_plain hplain
        | object => cases hplain
      · exact hπ u u' hu huu'
    | @object i j hij =>
      -- after the exchange so far, the number of the first value is put in its place
      refine ⟨π.trans (Equiv.swap (π i) j), fun u u' hu huu' => ?_⟩
      cases huu' with
      | plain hplain => exact Value.renumbered_plain hplain
      | @object k l hkl =>
        have hgoal : Equiv.swap (π i) j (π k) = l →
          (Value.object ⟨k⟩).renumbered (π.trans (Equiv.swap (π i) j)) =
            .object ⟨l⟩ := fun heq => congrArg (fun n => Value.object ⟨n⟩) heq
        refine hgoal ?_
        by_cases hk : i = k
        · subst hk
          rw [Equiv.swap_apply_left]
          exact (hR hij hkl).mp rfl
        · have hmem : Value.object ⟨k⟩ ∈ vs := by
            rcases List.mem_cons.mp hu with heq | hu
            · exact absurd (congrArg Ref.index (Value.object.inj heq)).symm hk
            · exact hu
          have hl : π k = l := congrArg Ref.index (Value.object.inj (hπ _ _ hmem (.object hkl)))
          have hne : π k ≠ π i := fun heq => hk (π.injective heq).symm
          have hne' : π k ≠ j := fun heq => hk ((hR hij hkl).mpr (heq.symm.trans hl))
          rw [Equiv.swap_apply_of_ne_of_ne hne hne', hl]

/-- Results that are the same, apart from the numbers of objects. -/
inductive Native.Agree (R : Nat → Nat → Prop) :
    Except String Value → Except String Value → Prop where
  | ok {v v' : Value} : Value.Renumbered R v v' → Agree R (.ok v) (.ok v')
  | error (message : String) : Agree R (.error message) (.error message)

/-- With arguments that are the same an equivariant native has results that are the same. -/
theorem Native.Equivariant.answers (hn : n.Equivariant) {R : Nat → Nat → Prop}
    (hR : ∀ {i j i' j'}, R i j → R i' j' → (i = i' ↔ j = j'))
    (h : List.Forall₂ (Value.Renumbered R) vs vs') :
    Agree R (n.call vs) (n.call vs') := by
  obtain ⟨π, hπ⟩ := exists_renumbering (R := R) hR h
  have hmap : vs' = vs.map (Value.renumbered π) := by
    refine List.ext_get (by rw [List.length_map, h.length_eq]) fun i hi' hi => ?_
    rw [List.length_map] at hi
    rw [List.get_eq_getElem, List.get_eq_getElem, List.getElem_map]
    exact (hπ _ _ (List.getElem_mem hi) (h.get hi hi')).symm
  rw [hmap, hn π vs]
  cases hv : n.call vs with
  | error message => exact .error message
  | ok v =>
    refine .ok ?_
    rcases hn.mem_arguments hv with hplain | hmem
    · rw [Value.renumbered_plain hplain]
      exact .plain hplain
    · obtain ⟨i, hi, rfl⟩ := List.getElem_of_mem hmem
      have hi' : i < vs'.length := h.length_eq ▸ hi
      have hrelated := h.get hi hi'
      rw [List.get_eq_getElem, List.get_eq_getElem] at hrelated
      rwa [hπ _ _ hmem hrelated]

end

/-! ## Built-in natives -/

namespace Builtin

variable {π : Equiv.Perm Nat} {vs : List Value}

/-- Reading an argument as a number gives the same when objects are renumbered. -/
theorem number_renumbered (vs : List Value) (i : Nat) :
    number (vs.map (Value.renumbered π)) i = number vs i := by
  rw [number, number, List.getElem?_map]
  cases vs[i]? with
  | none => rfl
  | some v => cases v <;> rfl

theorem binary_renumbered (f : Float → Float → Value) (vs : List Value) :
    binary f (vs.map (Value.renumbered π)) = binary f vs := by
  rw [binary, binary, number_renumbered, number_renumbered]

/-- No built-in native looks at the objects among its arguments. -/
theorem call_renumbered {edition : Nat} {n : Native} (h : n ∈ all edition) (vs : List Value) :
    n.call (vs.map (Value.renumbered π)) = n.call vs := by
  have hnumber := number_renumbered (π := π) vs 0
  simp only [all, List.mem_cons, List.not_mem_nil, or_false] at h
  rcases h with rfl | rfl | rfl | rfl | rfl | rfl | rfl | rfl
  · exact binary_renumbered _ vs
  · exact binary_renumbered _ vs
  · exact binary_renumbered _ vs
  · simp only [sqrt, hnumber]
  · show abs _ = abs _
    unfold abs
    rw [hnumber]
    cases vs with
    | nil => rfl
    | cons v vs => cases v <;> rfl
  · simp only [floor, hnumber]
  · show int _ = int _
    unfold int
    rw [hnumber]
    cases vs with
    | nil => rfl
    | cons v vs => cases v <;> rfl
  · simp only [float, hnumber]

end Builtin

/-- Natives that give the same plain values, whatever objects they get, are equivariant. -/
theorem Native.equivariant_of_plain {n : Native} (hplain : ∀ vs, PlainResult (n.call vs))
    (h : ∀ (π : Equiv.Perm Nat) vs, n.call (vs.map (Value.renumbered π)) = n.call vs) :
    n.Equivariant := by
  intro π vs
  rw [h]
  cases hv : n.call vs with
  | error message => rfl
  | ok v => exact congrArg Except.ok (Value.renumbered_plain (hplain vs v hv)).symm

end EntityScript
