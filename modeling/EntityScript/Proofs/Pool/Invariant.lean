/-
# Pools in order

A pool keeps three records of which machines are idle: the handles it will hand out, a mark at every
slot, and the generation of every slot.  They agree, whatever is done with the pool and with the
machines that are checked out (`Pool.Consistent`): one use of the pool keeps them so
(`Pool.Consistent.after`), and with it any number of uses.  What follows for whoever holds handles
is put together in `pool_invariant`.
-/
import Mathlib.Algebra.BigOperators.Group.List.Basic
import Mathlib.Data.List.Nodup
import Mathlib.Data.List.Perm.Basic
import EntityScript.Component
import EntityScript.Proofs.Pool.Slots

namespace EntityScript

namespace Pool

/-- What can be done with a pool. -/
inductive Use where
  /-- A machine is asked for. -/
  | request
  /-- A machine is given back, under whatever handle. -/
  | reclaim (h : Handle)
  /-- Something is done with the machine that a handle names, if it names one. -/
  | operate (h : Handle) (act : Machine → Machine)

/-- The pool after a use of it. -/
def after (p : Pool) : Use → Pool
  | .request => p.request.2
  | .reclaim h => Component.giveBack p h
  | .operate h act =>
    match p.get? h with
    | some m => p.put h (act m)
    | none => p

/-- The pool after several uses. -/
def afterAll (p : Pool) (uses : List Use) : Pool :=
  uses.foldl after p

/-- The slot that a handle points at is not in use, and has the generation of the handle. -/
def Idle (p : Pool) (h : Handle) : Prop :=
  ∃ s, p.slot? h = some s ∧ s.inUse = false ∧ s.generation = h.generation

/-- Every slot, with the handle that has its place and its generation. -/
def slots (p : Pool) : List (Handle × Slot) :=
  p.blocks.toList.zipIdx.flatMap fun entry =>
    entry.1.toList.zipIdx.map fun slot => (⟨entry.2, slot.2, slot.1.generation⟩, slot.1)

/-- The number of machines that are checked out. -/
def checkedOut (p : Pool) : Nat :=
  p.slots.countP fun entry => entry.2.inUse

/-- The records of a pool agree. -/
structure Consistent (p : Pool) : Prop where
  /-- All blocks have the same size. -/
  sizes : ∀ n ∈ p.sizes, n = p.growth
  /-- No handle is listed twice. -/
  nodup_free : p.free.Nodup
  /-- The idle slots are listed, each under its generation. -/
  mem_free : ∀ h, h ∈ p.free ↔ p.Idle h
  /-- An idle machine holds nothing. -/
  isBlank : ∀ h s, p.slot? h = some s → s.inUse = false → s.machine.IsBlank

variable {p q : Pool} {h k : Handle} {s : Slot} {m : Machine}

/-- No handle names the machine of a slot that is not in use. -/
theorem get?_of_not_inUse (hs : p.slot? h = some s) (huse : s.inUse = false) : p.get? h = none := by
  rw [get?_of_slot? hs, if_neg]
  intro haccepts
  rw [(accepts_iff.mp haccepts).1] at huse
  cases huse

/-- A slot is idle under one handle only. -/
theorem Idle.eq_of_samePlace (hh : p.Idle h) (hk : p.Idle k) (hplace : h.SamePlace k) : h = k := by
  obtain ⟨s, hs, -, hgen⟩ := hh
  obtain ⟨t, ht, -, hgen'⟩ := hk
  rw [slot?_congr hplace, ht] at hs
  cases hs
  exact Handle.ext_of_samePlace hplace (hgen.symm.trans hgen')

/-- What is done with a machine that is checked out leaves the idle ones as they are. -/
theorem slot?_put_idle (huse : s.inUse = false) : (p.put h m).slot? k = some s ↔
    p.slot? k = some s := by
  rw [slot?_put]
  by_cases hplace : h.SamePlace k
  · rw [if_pos hplace, Option.map_eq_some_iff]
    constructor
    · rintro ⟨t, ht, heq⟩
      split at heq
      · next haccepts =>
        cases heq
        exact absurd (accepts_iff.mp haccepts).1 (by rw [huse]; exact Bool.false_ne_true)
      · exact heq ▸ ht
    · intro hs
      refine ⟨s, hs, if_neg fun haccepts => ?_⟩
      rw [(accepts_iff.mp haccepts).1] at huse
      cases huse
  · rw [if_neg hplace]

/-! ## One use -/

/-- The pool with an idle machine in it: after growing, if there was none. -/
def stock (p : Pool) : Pool :=
  match p.free with
  | [] => { p.grow with free := ⟨p.blocks.size, 0, 0⟩ :: p.grow.free }
  | _ :: _ => p

/-- A request checks out the first handle of the free list, which is not empty after stocking up. -/
theorem request_eq (p : Pool) :
    ∃ h rest, p.stock.free = h :: rest ∧ p.request = (h, p.stock.checkOut h rest) := by
  rw [request, stock]
  cases hfree : p.free with
  | nil => exact ⟨_, _, rfl, rfl⟩
  | cons h rest => exact ⟨h, rest, hfree, rfl⟩

theorem growth_pos (p : Pool) : 0 < p.growth :=
  Nat.lt_of_lt_of_le Nat.one_pos (Nat.le_max_right _ _)

/-- The handles of a new block, together with those that were listed before. -/
theorem grow_free_eq (p : Pool) :
    ⟨p.blocks.size, 0, 0⟩ :: p.grow.free =
      (List.range p.growth).map (⟨p.blocks.size, ·, 0⟩) ++ p.free := by
  have hrange : List.range p.growth = 0 :: (List.range (p.growth - 1)).map (· + 1) := by
    rw [← List.range_succ_eq_map, Nat.sub_add_cancel p.growth_pos]
  rw [hrange, List.map_cons, List.map_map]
  rfl

/-- A pool without blocks is in order. -/
theorem consistent_new (host : Host) (blockSize : Nat) : (new host blockSize).Consistent where
  sizes n hn := by cases hn
  nodup_free := .nil
  mem_free h := by
    constructor
    · intro hmem
      cases hmem
    · rintro ⟨s, hs, -⟩
      cases hs
  isBlank h s hs := by cases hs

namespace Consistent

/-- Growing when nothing is idle makes the new machines idle, all of them and no others. -/
theorem stock (hp : p.Consistent) : p.stock.Consistent := by
  rw [Pool.stock]
  split
  · next hfree =>
    -- the list was empty, so the free handles are those of the new block
    have hlisted : ⟨p.blocks.size, 0, 0⟩ :: p.grow.free =
      (List.range p.growth).map (⟨p.blocks.size, ·, 0⟩) := by
      rw [grow_free_eq, hfree, List.append_nil]
    rw [hlisted]
    refine ⟨?_, ?_, ?_, ?_⟩
    · intro n hn
      rw [sizes_free, sizes_grow, List.mem_append, List.mem_singleton] at hn
      exact hn.elim (hp.sizes n) id
    · exact List.Nodup.map (fun i j hij => congrArg Handle.index hij) List.nodup_range
    · intro h
      rw [List.mem_map, Idle, slot?_free, slot?_grow]
      constructor
      · rintro ⟨i, hi, rfl⟩
        exact ⟨⟨.new p.host, false, 0⟩, by rw [if_pos rfl, if_pos (List.mem_range.mp hi)], rfl, rfl⟩
      · rintro ⟨s, hs, huse, hgen⟩
        split at hs
        · next hblock =>
          split at hs
          · next hindex =>
            cases hs
            refine ⟨h.index, List.mem_range.mpr hindex, ?_⟩
            exact Handle.ext_of_samePlace ⟨hblock.symm, rfl⟩ hgen
          · cases hs
        · -- nothing was idle before
          have hmem := (hp.mem_free h).mpr ⟨s, hs, huse, hgen⟩
          rw [hfree] at hmem
          cases hmem
    · intro h s hs huse
      rw [slot?_free, slot?_grow] at hs
      split at hs
      · split at hs
        · cases hs
          exact Machine.isBlank_new p.host
        · cases hs
      · exact hp.isBlank h s hs huse
  · exact hp

/-- Handing out the first of the idle machines. -/
theorem checkOut {rest : List Handle} (hp : p.Consistent) (hfree : p.free = h :: rest) :
    (p.checkOut h rest).Consistent := by
  have hnodup := hp.nodup_free
  rw [hfree, List.nodup_cons] at hnodup
  refine ⟨?_, hnodup.2, ?_, ?_⟩
  · intro n hn
    rw [Pool.checkOut, sizes_modifySlot] at hn
    exact hp.sizes n hn
  · intro k
    rw [Idle, slot?_checkOut]
    have hidle := (hp.mem_free h).mp (hfree ▸ List.mem_cons_self)
    constructor
    · intro hk
      have hkidle := (hp.mem_free k).mp (hfree ▸ List.mem_cons_of_mem h hk)
      rwa [if_neg fun hplace => hnodup.1 (hidle.eq_of_samePlace hkidle hplace ▸ hk)]
    · rintro ⟨s, hs, huse, hgen⟩
      split at hs
      · obtain ⟨t, -, rfl⟩ := Option.map_eq_some_iff.mp hs
        cases huse
      · next hplace =>
        have hk := (hp.mem_free k).mpr ⟨s, hs, huse, hgen⟩
        rw [hfree, List.mem_cons] at hk
        exact hk.resolve_left fun heq => hplace (heq ▸ ⟨rfl, rfl⟩)
  · intro k s hs huse
    rw [slot?_checkOut] at hs
    split at hs
    · obtain ⟨t, -, rfl⟩ := Option.map_eq_some_iff.mp hs
      cases huse
    · exact hp.isBlank k s hs huse

theorem request (hp : p.Consistent) : p.request.2.Consistent := by
  obtain ⟨h, rest, hfree, hrequest⟩ := p.request_eq
  rw [hrequest]
  exact hp.stock.checkOut hfree

/-- Giving a machine back makes it idle. -/
theorem takeBack (hp : p.Consistent) (hh : p.get? h = some m) : (p.takeBack h).Consistent := by
  obtain ⟨s, hs, haccepts, -⟩ := get?_eq_some_iff.mp hh
  have huse := (accepts_iff.mp haccepts).1
  -- the next handle of the slot is idle now, besides those that were
  have hidle : ∀ k, (p.takeBack h).Idle k ↔ k = h.next ∨ p.Idle k := by
    intro k
    rw [Idle, slot?_takeBack]
    by_cases hplace : h.SamePlace k
    · rw [if_pos hplace, ← slot?_congr hplace, hs]
      constructor
      · rintro ⟨t, ht, -, hgen⟩
        cases ht
        exact .inl (Handle.ext_of_samePlace ⟨hplace.1.symm, hplace.2.symm⟩ hgen.symm)
      · rintro (rfl | ⟨t, ht, huse', -⟩)
        · exact ⟨_, rfl, rfl, rfl⟩
        · -- the slot was in use
          rw [← slot?_congr hplace, hs] at ht
          cases ht
          rw [huse] at huse'
          cases huse'
    · rw [if_neg hplace]
      exact ⟨.inr, fun hk => hk.resolve_left fun heq => hplace (heq ▸ h.samePlace_next)⟩
  refine ⟨?_, ?_, ?_, ?_⟩
  · intro n hn
    rw [Pool.takeBack, sizes_free, sizes_modifySlot] at hn
    exact hp.sizes n hn
  -- the slot was in use, so its next handle was not in the list
  · refine List.nodup_cons.mpr ⟨fun hnext => ?_, hp.nodup_free⟩
    obtain ⟨t, ht, huse', -⟩ := (hp.mem_free _).mp hnext
    rw [← slot?_congr h.samePlace_next, hs] at ht
    cases ht
    rw [huse] at huse'
    cases huse'
  · intro k
    rw [hidle, ← hp.mem_free]
    exact List.mem_cons
  · intro k t ht huse'
    rw [slot?_takeBack] at ht
    split at ht
    · obtain ⟨t, -, rfl⟩ := Option.map_eq_some_iff.mp ht
      exact Machine.isBlank_reset t.machine
    · exact hp.isBlank k t ht huse'

/-- What is done with a machine that is checked out changes no record. -/
theorem put (hp : p.Consistent) (h : Handle) (m : Machine) : (p.put h m).Consistent where
  sizes n hn := by
    rw [Pool.put, sizes_modifySlot] at hn
    exact hp.sizes n hn
  nodup_free := hp.nodup_free
  mem_free k := by
    refine (hp.mem_free k).trans ⟨?_, ?_⟩
    · rintro ⟨s, hs, huse, hgen⟩
      exact ⟨s, (slot?_put_idle huse).mpr hs, huse, hgen⟩
    · rintro ⟨s, hs, huse, hgen⟩
      exact ⟨s, (slot?_put_idle huse).mp hs, huse, hgen⟩
  isBlank k s hs huse := hp.isBlank k s ((slot?_put_idle huse).mp hs) huse

theorem after (hp : p.Consistent) (use : Use) : (p.after use).Consistent := by
  cases use with
  | request => exact hp.request
  | reclaim h =>
    rw [Pool.after, Component.giveBack]
    cases hh : p.get? h with
    | none =>
      rw [reclaim_of_get?_none hh]
      exact hp
    | some m =>
      rw [reclaim_of_get? hh]
      exact hp.takeBack hh
  | operate h act =>
    rw [Pool.after]
    split
    · exact hp.put h _
    · exact hp

/-- A pool is in order after any number of uses. -/
theorem afterAll (hp : p.Consistent) (uses : List Use) : (p.afterAll uses).Consistent := by
  induction uses generalizing p with
  | nil => exact hp
  | cons use uses ih => exact ih (hp.after use)

end Consistent

/-! ## Numbers of machines -/

/-- The slots of a pool with the handles that name them at present. -/
theorem mem_slots {entry : Handle × Slot} :
    entry ∈ p.slots ↔ p.slot? entry.1 = some entry.2 ∧ entry.2.generation = entry.1.generation := by
  obtain ⟨⟨b, i, generation⟩, s⟩ := entry
  simp only [slots, List.mem_flatMap, List.mem_map, Prod.mk.injEq, Handle.mk.injEq,
    List.mem_zipIdx_iff_getElem?, Array.getElem?_toList, slot?, Option.bind_eq_some_iff]
  constructor
  · rintro ⟨⟨block, _⟩, hblock, ⟨_, _⟩, hs, ⟨rfl, rfl, rfl⟩, rfl⟩
    exact ⟨⟨block, hblock, hs⟩, rfl⟩
  · rintro ⟨⟨block, hblock, hs⟩, rfl⟩
    exact ⟨(block, b), hblock, (s, i), hs, ⟨rfl, rfl, rfl⟩, rfl⟩

/-- No two slots have the same handle. -/
theorem nodup_slots (p : Pool) : (p.slots.map Prod.fst).Nodup := by
  rw [slots, List.map_flatMap, List.nodup_flatMap]
  constructor
  · rintro ⟨block, b⟩ -
    refine List.Nodup.of_map Handle.index ?_
    rw [List.map_map, List.map_map]
    exact List.zipIdx_map_snd 0 block.toList ▸ List.nodup_range'
  · have hblocks : (p.blocks.toList.zipIdx.map Prod.snd).Nodup := by
      rw [List.zipIdx_map_snd]
      exact List.nodup_range'
    refine (List.pairwise_map.mp hblocks).imp ?_
    rintro ⟨block, b⟩ ⟨block', b'⟩ hne
    simp only [Function.onFun, List.disjoint_left, List.mem_map]
    rintro h ⟨_, ⟨_, -, rfl⟩, rfl⟩ ⟨_, ⟨_, -, rfl⟩, heq⟩
    exact hne (congrArg Handle.block heq).symm

/-- There are as many slots as machines. -/
theorem length_slots (p : Pool) : p.slots.length = p.capacity := by
  have hsizes : p.blocks.toList.zipIdx.map (fun entry => entry.1.toList.zipIdx.length) =
    p.sizes := by
    rw [sizes]
    conv_rhs => rw [← List.zipIdx_map_fst 0 p.blocks.toList, List.map_map]
    refine List.map_congr_left fun entry _ => ?_
    rw [List.length_zipIdx]
    rfl
  rw [capacity_eq, ← List.sum_eq_foldl, ← hsizes, slots, List.length_flatMap]
  simp only [List.length_map]

/-- A machine is either idle or checked out. -/
theorem Consistent.capacity_eq (hp : p.Consistent) : p.capacity = p.available + p.checkedOut := by
  have hfree : p.free.Perm ((p.slots.filter fun entry => !entry.2.inUse).map Prod.fst) := by
    refine (List.perm_ext_iff_of_nodup hp.nodup_free ?_).mpr fun h => ?_
    · exact p.nodup_slots.sublist (List.filter_sublist.map _)
    · simp only [hp.mem_free, Idle, List.mem_map, List.mem_filter, mem_slots, Bool.not_eq_true']
      constructor
      · rintro ⟨s, hs, huse, hgen⟩
        exact ⟨(h, s), ⟨⟨hs, hgen⟩, huse⟩, rfl⟩
      · rintro ⟨⟨_, s⟩, ⟨⟨hs, hgen⟩, huse⟩, rfl⟩
        exact ⟨s, hs, huse, hgen⟩
  rw [available, hfree.length_eq, List.length_map, ← List.countP_eq_length_filter, checkedOut,
    Nat.add_comm, ← length_slots]
  simpa using p.slots.length_eq_countP_add_countP fun entry => entry.2.inUse

/-- A pool grows by blocks of one size. -/
theorem Consistent.growth_dvd (hp : p.Consistent) : p.growth ∣ p.capacity := by
  rw [Pool.capacity_eq]
  refine List.foldlRecOn p.sizes _ (Nat.dvd_zero _) fun n hn k hk => ?_
  exact Nat.dvd_add hn (hp.sizes k hk ▸ Nat.dvd_refl _)

/-- A use of a pool leaves the sizes of its blocks as they are, or adds a block. -/
theorem sizes_after (p : Pool) (use : Use) :
    (p.after use).sizes = p.sizes ∨ (p.after use).sizes = p.sizes ++ [p.growth] := by
  cases use with
  | request =>
    obtain ⟨h, rest, -, hrequest⟩ := p.request_eq
    rw [after, hrequest, checkOut, sizes_modifySlot, sizes_free, stock]
    split
    · exact .inr (p.sizes_grow)
    · exact .inl rfl
  | reclaim h =>
    rw [after, Component.giveBack]
    cases hh : p.get? h with
    | none =>
      rw [reclaim_of_get?_none hh]
      exact .inl rfl
    | some m =>
      rw [reclaim_of_get? hh]
      exact .inl (by dsimp only; rw [takeBack, sizes_free, sizes_modifySlot])
  | operate h act =>
    rw [after]
    split
    · exact .inl (sizes_modifySlot p h _)
    · exact .inl rfl

/-- A pool never becomes smaller. -/
theorem capacity_le_after (p : Pool) (use : Use) : p.capacity ≤ (p.after use).capacity := by
  rw [capacity_eq, capacity_eq]
  rcases p.sizes_after use with hsizes | hsizes
  · exact Nat.le_of_eq (by rw [hsizes])
  · rw [hsizes, List.foldl_append]
    exact Nat.le_add_right _ _

/-- A pool never shrinks. -/
theorem capacity_le_afterAll (p : Pool) (uses : List Use) :
    p.capacity ≤ (p.afterAll uses).capacity := by
  induction uses generalizing p with
  | nil => exact Nat.le_refl _
  | cons use uses ih => exact Nat.le_trans (p.capacity_le_after use) (ih _)

/-- The size of a block is fixed. -/
theorem blockSize_after (p : Pool) (use : Use) : (p.after use).blockSize = p.blockSize := by
  cases use with
  | request =>
    rw [after, request]
    split <;> rfl
  | reclaim h =>
    rw [after, Component.giveBack]
    cases hh : p.get? h with
    | none => rw [reclaim_of_get?_none hh]
    | some m =>
      rw [reclaim_of_get? hh]
      rfl
  | operate h act =>
    rw [after]
    split <;> rfl

theorem blockSize_afterAll (p : Pool) (uses : List Use) :
    (p.afterAll uses).blockSize = p.blockSize := by
  induction uses generalizing p with
  | nil => rfl
  | cons use uses ih => exact (ih _).trans (p.blockSize_after use)

/-! ## Handles -/

/-- New machines are not checked out. -/
theorem get?_stock (p : Pool) (k : Handle) : p.stock.get? k = p.get? k := by
  rw [stock]
  split
  · by_cases hblock : k.block = p.blocks.size
    · rw [get?_of_slot?_none (p.slot?_of_size_le (Nat.le_of_eq hblock.symm)), get?,
        slot?_free, slot?_grow, if_pos hblock]
      split <;> rfl
    · refine get?_eq_of_slot? ?_
      rw [slot?_free, slot?_grow, if_neg hblock]
  · rfl

/-- Checking out a handle makes that handle acceptable, and changes no other. -/
theorem get?_checkOut {free : List Handle} (hh : p.Idle h) (k : Handle) :
    (p.checkOut h free).get? k = if h = k then (p.slot? h).map Slot.machine else p.get? k := by
  obtain ⟨s, hs, huse, hgen⟩ := hh
  have hslot := p.slot?_checkOut h free k
  by_cases hplace : h.SamePlace k
  · rw [if_pos hplace, ← slot?_congr (p := p) hplace, hs, Option.map_some] at hslot
    rw [get?_of_slot? hslot]
    by_cases heq : h = k
    · cases heq
      rw [if_pos rfl, hs]
      exact if_pos (accepts_iff (s := ⟨s.machine, true, s.generation⟩) |>.mpr ⟨rfl, hgen⟩)
    · rw [if_neg heq, get?_of_not_inUse (slot?_congr hplace ▸ hs) huse]
      refine if_neg fun haccepts => heq (Handle.ext_of_samePlace hplace (hgen.symm.trans ?_))
      exact (accepts_iff.mp haccepts).2
  · rw [get?_eq_of_slot? (hslot.trans (if_neg hplace)), if_neg]
    rintro rfl
    exact hplace ⟨rfl, rfl⟩

/-- The machine of a request was idle, or is new. -/
theorem Consistent.idle_request (hp : p.Consistent) :
    p.Idle p.request.1 ∨ p.free = [] ∧ p.slot? p.request.1 = none := by
  rw [Pool.request]
  cases hfree : p.free with
  | nil => exact .inr ⟨rfl, p.slot?_of_size_le (Nat.le_refl _)⟩
  | cons h rest => exact .inl ((hp.mem_free h).mp (hfree ▸ List.mem_cons_self))

/-- The handle that a request gives was not accepted before. -/
theorem Consistent.get?_request_fst (hp : p.Consistent) : p.get? p.request.1 = none := by
  rcases hp.idle_request with ⟨s, hs, huse, -⟩ | ⟨-, hnone⟩
  · exact get?_of_not_inUse hs huse
  · exact get?_of_slot?_none hnone

/-- A request makes one more handle acceptable, which names an empty machine. -/
theorem Consistent.get?_request (hp : p.Consistent) :
    ∃ m, m.IsBlank ∧ ∀ k, p.request.2.get? k = if p.request.1 = k then some m else p.get? k := by
  obtain ⟨h, rest, hfree, hrequest⟩ := p.request_eq
  have hidle : p.stock.Idle h := (hp.stock.mem_free h).mp (hfree ▸ List.mem_cons_self)
  obtain ⟨s, hs, huse, -⟩ := id hidle
  refine ⟨s.machine, hp.stock.isBlank h s hs huse, fun k => ?_⟩
  rw [hrequest, get?_checkOut hidle, get?_stock, hs]
  rfl

end Pool

/-- Whatever has been done with a pool and with its machines, the handles that it will hand out are
those of its idle machines, each listed once; it has a whole number of blocks and never shrinks; its
idle machines hold nothing; a request makes a handle acceptable that was not, so that different
handles never name the same machine; and a machine that is not taken back leaves the pool as it
was. -/
theorem pool_invariant (host : Host) (blockSize : Nat) (uses : List Pool.Use) :
    let p := (Pool.new host blockSize).afterAll uses
    (p.free.Nodup ∧ ∀ h, h ∈ p.free ↔ p.Idle h) ∧
    (p.capacity = p.available + p.checkedOut ∧ max blockSize 1 ∣ p.capacity ∧
      ∀ more, p.capacity ≤ (p.afterAll more).capacity) ∧
    (∀ h s, p.slot? h = some s → s.inUse = false → s.machine.IsBlank) ∧
    ((p.Idle p.request.1 ∨ p.free = [] ∧ p.slot? p.request.1 = none) ∧ p.get? p.request.1 = none ∧
      ∃ m, m.IsBlank ∧ ∀ k, p.request.2.get? k = if p.request.1 = k then some m else p.get? k) ∧
    (∀ h k, (p.get? h).isSome → (p.get? k).isSome → h.SamePlace k → h = k) ∧
    (∀ h e, p.reclaim h = .error e → p.get? h = none ∧ p.after (.reclaim h) = p) ∧
    ∀ h q, p.reclaim h = .ok q → (p.get? h).isSome ∧
    ∀ k, q.get? k = if h = k then none else p.get? k := by
  intro p
  have hp : p.Consistent := (Pool.consistent_new host blockSize).afterAll uses
  have hgrowth : p.growth = max blockSize 1 :=
    congrArg (max · 1) ((Pool.new host blockSize).blockSize_afterAll uses)
  refine ⟨⟨hp.nodup_free, hp.mem_free⟩,
    ⟨hp.capacity_eq, hgrowth ▸ hp.growth_dvd, p.capacity_le_afterAll⟩,
    hp.isBlank, ⟨hp.idle_request, hp.get?_request_fst, hp.get?_request⟩, fun h k =>
    Pool.eq_of_accepted,
    fun h e he => ?_, fun h q hq => ?_⟩
  · refine ⟨Pool.get?_of_reclaim_error he, ?_⟩
    rw [Pool.after, Component.giveBack, he]
  · obtain ⟨hh, rfl⟩ := Pool.of_reclaim_ok hq
    exact ⟨hh, Pool.get?_takeBack hh⟩

end EntityScript
