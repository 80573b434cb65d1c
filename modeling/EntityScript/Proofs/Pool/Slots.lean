/-
# The slots of a pool

What every operation of a pool does to each slot, and with it to what every handle names: a request
makes one handle acceptable that was not, taking a machine back makes one unacceptable, and what all
other handles name stays as it is.
-/
import EntityScript.Pool

namespace EntityScript

/-- Two handles point at the same slot. -/
def Handle.SamePlace (h k : Handle) : Prop :=
  h.block = k.block ∧ h.index = k.index

instance (h k : Handle) : Decidable (h.SamePlace k) :=
  inferInstanceAs (Decidable (_ ∧ _))

/-- A handle is its place and its generation. -/
theorem Handle.ext_of_samePlace {h k : Handle} (hplace : h.SamePlace k)
    (hgen : h.generation = k.generation) :
    h = k := by
  obtain ⟨block, index, generation⟩ := h
  obtain ⟨hblock, hindex⟩ := hplace
  cases hblock
  cases hindex
  cases hgen
  rfl

/-- The handle of the next check-out of a slot. -/
def Handle.next (h : Handle) : Handle :=
  { h with generation := h.generation + 1 }

/-- The next handle is for the same slot. -/
theorem Handle.samePlace_next (h : Handle) : h.SamePlace h.next := ⟨rfl, rfl⟩

/-- A machine with nothing loaded: all but its host and its output is as in a new one. -/
def Machine.IsBlank (m : Machine) : Prop :=
  m = { Machine.new m.host with sink := m.sink }

theorem Machine.isBlank_new (host : Host) : (Machine.new host).IsBlank := rfl

theorem Machine.isBlank_reset (m : Machine) : m.reset.IsBlank := rfl

namespace Pool

variable {p q : Pool} {h k : Handle} {s : Slot} {f : Slot → Slot} {m : Machine}

theorem slot?_congr (hplace : h.SamePlace k) : p.slot? h = p.slot? k := by
  rw [slot?, slot?, hplace.1, hplace.2]

/-- A slot accepts the handle that it is checked out under. -/
theorem accepts_iff : accepts s h = true ↔ s.inUse = true ∧ s.generation = h.generation := by
  rw [accepts, Bool.and_eq_true, beq_iff_eq]

/-! ## Slots -/

/-- Changing a slot changes it for all handles of its place, and no other slot. -/
theorem slot?_modifySlot (p : Pool) (h : Handle) (f : Slot → Slot) (k : Handle) :
    (p.modifySlot h f).slot? k = if h.SamePlace k then (p.slot? k).map f else p.slot? k := by
  rw [slot?, modifySlot]
  dsimp only
  rw [Array.getElem?_modify]
  by_cases hblock : h.block = k.block
  · rw [if_pos hblock, Option.bind_map]
    by_cases hindex : h.index = k.index
    · rw [if_pos ⟨hblock, hindex⟩, slot?, Option.map_bind]
      congr 1
      funext block
      simp [Array.getElem?_modify, hindex]
    · rw [if_neg fun hplace => hindex hplace.2, slot?]
      congr 1
      funext block
      simp [Array.getElem?_modify, hindex]
  · rw [if_neg hblock, if_neg fun hplace => hblock hplace.1, slot?]

/-- The slots of a further block are new and not in use. -/
theorem slot?_grow (p : Pool) (k : Handle) :
    p.grow.slot? k = if k.block = p.blocks.size then
      if k.index < p.growth then some ⟨.new p.host, false, 0⟩ else none
    else p.slot? k := by
  rw [slot?, grow]
  dsimp only
  rw [Array.getElem?_push]
  by_cases hblock : k.block = p.blocks.size
  · rw [if_pos hblock, if_pos hblock, Option.bind_some, Array.getElem?_replicate]
  · rw [if_neg hblock, if_neg hblock, slot?]

/-- Nothing is behind the last block. -/
theorem slot?_of_size_le (hblock : p.blocks.size ≤ k.block) : p.slot? k = none := by
  rw [slot?, Array.getElem?_eq_none hblock]
  rfl

theorem slot?_free (free : List Handle) :
    ({ p with free := free } : Pool).slot? k = p.slot? k := rfl

theorem slot?_checkOut (p : Pool) (h : Handle) (free : List Handle) (k : Handle) :
    (p.checkOut h free).slot? k =
      if h.SamePlace k then (p.slot? k).map fun s => { s with inUse := true } else p.slot? k := by
  rw [checkOut, slot?_modifySlot, slot?_free]

/-! ## Checked-out machines -/

/-- A handle gives the machine of its slot if the slot is in use in the handle's generation. -/
theorem get?_eq_some_iff :
    p.get? h = some m ↔ ∃ s, p.slot? h = some s ∧ accepts s h = true ∧ s.machine = m := by
  rw [get?, Option.map_eq_some_iff]
  simp only [Option.filter_eq_some_iff, and_assoc]

theorem get?_of_slot? (hs : p.slot? h = some s) :
    p.get? h = if accepts s h then some s.machine else none := by
  rw [get?, hs]
  cases haccepts : accepts s h <;> simp [Option.filter, haccepts]

theorem get?_of_slot?_none (hs : p.slot? h = none) : p.get? h = none := by
  rw [get?, hs]
  rfl

/-- What a handle names depends on the slot it points at only. -/
theorem get?_eq_of_slot? (hs : q.slot? h = p.slot? h) : q.get? h = p.get? h := by
  rw [get?, get?, hs]

/-- Two handles that are accepted point at different slots. -/
theorem eq_of_accepted (hh : (p.get? h).isSome) (hk : (p.get? k).isSome) (hplace : h.SamePlace k) :
    h = k := by
  obtain ⟨m, hm⟩ := Option.isSome_iff_exists.mp hh
  obtain ⟨n, hn⟩ := Option.isSome_iff_exists.mp hk
  obtain ⟨s, hs, haccepts, -⟩ := get?_eq_some_iff.mp hm
  obtain ⟨t, ht, haccepts', -⟩ := get?_eq_some_iff.mp hn
  rw [slot?_congr hplace, ht] at hs
  cases hs
  exact Handle.ext_of_samePlace hplace
    ((accepts_iff.mp haccepts).2.symm.trans (accepts_iff.mp haccepts').2)

theorem slot?_put (p : Pool) (h : Handle) (m : Machine) (k : Handle) :
    (p.put h m).slot? k = if h.SamePlace k then
      (p.slot? k).map fun s => if accepts s h then { s with machine := m } else s
    else p.slot? k :=
  slot?_modifySlot p h _ k

/-- A changed machine is what its handle gives; other handles give what they gave. -/
theorem get?_put (p : Pool) (h : Handle) (m : Machine) (k : Handle) :
    (p.put h m).get? k = if h = k then (p.get? k).map fun _ => m else p.get? k := by
  have hslot := slot?_put p h m k
  by_cases hplace : h.SamePlace k
  · rw [if_pos hplace] at hslot
    cases hs : p.slot? k with
    | none =>
      rw [hs] at hslot
      rw [get?_of_slot?_none hs, get?_of_slot?_none hslot, Option.map_none, ite_self]
    | some s =>
      rw [hs, Option.map_some] at hslot
      by_cases haccepts : accepts s h = true
      · rw [if_pos haccepts] at hslot
        rw [get?_of_slot? hs, get?_of_slot? hslot]
        by_cases heq : h = k
        · cases heq
          rw [if_pos rfl, if_pos haccepts]
          exact if_pos haccepts
        · -- the slot is checked out under another handle
          have hother : ¬ accepts s k = true := fun haccepts' => heq (Handle.ext_of_samePlace hplace
            ((accepts_iff.mp haccepts).2.symm.trans (accepts_iff.mp haccepts').2))
          rw [if_neg heq, if_neg hother]
          exact if_neg hother
      · rw [if_neg haccepts] at hslot
        rw [get?_eq_of_slot? (hslot.trans hs.symm)]
        by_cases heq : h = k
        · cases heq
          rw [if_pos rfl, get?_of_slot? hs, if_neg haccepts]
          rfl
        · rw [if_neg heq]
  · rw [if_neg hplace] at hslot
    rw [get?_eq_of_slot? hslot, if_neg]
    rintro rfl
    exact hplace ⟨rfl, rfl⟩

/-- Taking a machine back fails exactly where the handle does not name one. -/
theorem reclaim_of_get?_none (hh : p.get? h = none) :
    p.reclaim h = .error (if (p.slot? h).isSome then .notInUse h else .unknownHandle h) := by
  rw [reclaim]
  cases hs : p.slot? h with
  | none => rfl
  | some s =>
    rw [get?_of_slot? hs] at hh
    dsimp only
    rw [if_neg]
    · rfl
    · intro haccepts
      rw [if_pos haccepts] at hh
      cases hh

/-- The pool after a machine has been taken back: it is empty, and idle under the next
generation. -/
def takeBack (p : Pool) (h : Handle) : Pool :=
  { p.modifySlot h fun s => ⟨s.machine.reset, false, h.generation + 1⟩ with free :=
    h.next :: p.free }

/-- A handle that gives a machine can be given back. -/
theorem reclaim_of_get? (hh : p.get? h = some m) : p.reclaim h = .ok (p.takeBack h) := by
  obtain ⟨s, hs, haccepts, -⟩ := get?_eq_some_iff.mp hh
  rw [reclaim, hs]
  dsimp only
  rw [if_pos haccepts, (accepts_iff.mp haccepts).2]
  rfl

/-- One that is refused gives none. -/
theorem get?_of_reclaim_error {e : PoolError} (he : p.reclaim h = .error e) : p.get? h = none := by
  cases hh : p.get? h with
  | none => rfl
  | some m =>
    rw [reclaim_of_get? hh] at he
    cases he

/-- One that is taken back gave a machine. -/
theorem of_reclaim_ok (hq : p.reclaim h = .ok q) : (p.get? h).isSome ∧ q = p.takeBack h := by
  cases hh : p.get? h with
  | none =>
    rw [reclaim_of_get?_none hh] at hq
    cases hq
  | some m =>
    rw [reclaim_of_get? hh] at hq
    cases hq
    exact ⟨rfl, rfl⟩

/-- A slot that is taken back is reset, no longer in use, and in the next generation. -/
theorem slot?_takeBack (p : Pool) (h k : Handle) :
    (p.takeBack h).slot? k =
      if h.SamePlace k then (p.slot? k).map fun s => ⟨s.machine.reset, false, h.generation + 1⟩
      else p.slot? k := by
  rw [takeBack, slot?_free, slot?_modifySlot]

/-- A handle names nothing after it has been taken back; the other handles name what they named. -/
theorem get?_takeBack (hh : (p.get? h).isSome) (k : Handle) :
    (p.takeBack h).get? k = if h = k then none else p.get? k := by
  by_cases hplace : h.SamePlace k
  · -- nothing is accepted at the place of an idle machine, and `h` alone was before
    have hslot := slot?_takeBack p h k
    rw [if_pos hplace] at hslot
    have hnone : (p.takeBack h).get? k = none := by
      rw [get?, hslot]
      cases p.slot? k <;> rfl
    rw [hnone]
    by_cases heq : h = k
    · rw [if_pos heq]
    · rw [if_neg heq]
      cases hk : p.get? k with
      | none => rfl
      | some m => exact absurd (eq_of_accepted hh (by rw [hk]; rfl) hplace) heq
  · rw [get?_eq_of_slot? ((slot?_takeBack p h k).trans (if_neg hplace)), if_neg]
    rintro rfl
    exact hplace ⟨rfl, rfl⟩

/-! ## Sizes -/

/-- The sizes of the blocks. -/
def sizes (p : Pool) : List Nat :=
  p.blocks.toList.map Array.size

/-- Changing a slot changes the size of no block. -/
theorem sizes_modifySlot (p : Pool) (h : Handle) (f : Slot → Slot) :
    (p.modifySlot h f).sizes = p.sizes := by
  refine List.ext_getElem? fun b => ?_
  rw [sizes, sizes, List.getElem?_map, List.getElem?_map, Array.getElem?_toList,
    Array.getElem?_toList, modifySlot]
  dsimp only
  rw [Array.getElem?_modify]
  split
  · rw [Option.map_map]
    congr 1
    funext block
    exact Array.size_modify
  · rfl

theorem sizes_free (free : List Handle) : ({ p with free := free } : Pool).sizes = p.sizes := rfl

/-- Growing adds a block. -/
theorem sizes_grow (p : Pool) : p.grow.sizes = p.sizes ++ [p.growth] := by
  rw [sizes, grow]
  dsimp only
  rw [Array.toList_push, List.map_append]
  simp [sizes]

theorem capacity_eq (p : Pool) : p.capacity = p.sizes.foldl (· + ·) 0 := by
  rw [capacity, ← Array.foldl_toList, sizes, List.foldl_map]

end Pool

end EntityScript
