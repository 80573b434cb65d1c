/-
# No machine is lost

Entities take machines from a pool and give them back; in between, the host may do anything with a
machine that is checked out.  At every time the handles that the entities keep are those that the
pool accepts, each in one slot of one entity (`Crowd.Accounts`): one use keeps them so
(`Crowd.Accounts.use`), and with it any number of uses.  So the machines that are not idle are as
many as the slots that are occupied, and a tick deals with each of them once (`no_machine_leaked`).
-/
import Mathlib.Algebra.BigOperators.Group.Finset.Basic
import EntityScript.Proofs.Component.Alone

namespace EntityScript

/-! ## Machines that are checked out -/

namespace Pool

variable {p : Pool} {handles : List Handle}

/-- The machines that are checked out are as many as the handles that are accepted. -/
theorem checkedOut_eq (hnodup : handles.Nodup) (hmem : ∀ h, h ∈ handles ↔ (p.get? h).isSome) :
    p.checkedOut = handles.length := by
  have hperm : ((p.slots.filter fun entry => entry.2.inUse).map Prod.fst).Perm handles := by
    refine (List.perm_ext_iff_of_nodup (p.nodup_slots.sublist (List.filter_sublist.map _))
      hnodup).mpr fun h => ?_
    simp only [hmem, List.mem_map, List.mem_filter, mem_slots, Option.isSome_iff_exists,
      get?_eq_some_iff, accepts_iff]
    constructor
    · rintro ⟨⟨_, s⟩, ⟨⟨hs, hgen⟩, huse⟩, rfl⟩
      exact ⟨s.machine, s, hs, ⟨huse, hgen⟩, rfl⟩
    · rintro ⟨m, s, hs, ⟨huse, hgen⟩, rfl⟩
      exact ⟨(h, s), ⟨⟨hs, hgen⟩, huse⟩, rfl⟩
  rw [checkedOut, List.countP_eq_length_filter, ← hperm.length_eq, List.length_map]

/-- Changing a machine does not change which handles are accepted. -/
theorem isSome_put (p : Pool) (h : Handle) (m : Machine) (k : Handle) :
    ((p.put h m).get? k).isSome = (p.get? k).isSome := by
  rw [get?_put]
  split
  · rw [Option.isSome_map]
  · rfl

end Pool

/-! ## Ticks -/

/-- Whether a script was resumed. -/
def SlotReport.isResumed : SlotReport → Bool
  | .resumed _ _ => true
  | .vacant | .stale _ => false

/-- Every script that was resumed and has come back has yielded, ended or failed. -/
theorem TickReport.counts (r : TickReport)
    (hreturns : ∀ text, .resumed .unfinished text ∉ r.slots) :
    r.yielded + r.finished + r.faults.length = r.slots.countP SlotReport.isResumed := by
  obtain ⟨reports⟩ := r
  dsimp only at hreturns ⊢
  induction reports with
  | nil => rfl
  | cons report reports ih =>
    have hrest := ih fun text hmem => hreturns text (List.mem_cons_of_mem _ hmem)
    simp only [yielded, finished, faults, List.countP_cons, List.filterMap_cons] at hrest ⊢
    cases report with
    | vacant | stale => exact hrest
    | resumed outcome text =>
      cases outcome with
      | unfinished => exact absurd List.mem_cons_self (hreturns text)
      | exited e => cases e <;> simp [SlotReport.isResumed] <;> omega
      | faulted e => simp [SlotReport.isResumed]; omega

namespace Machine

/-- A machine that has yielded is suspended. -/
theorem status_interpret {n : Nat} {m : Machine} {text : String}
    (h : (interpret n m text).outcome = .exited .yielded) :
    (interpret n m text).machine.status = .suspended := by
  induction n generalizing m text with
  | zero => cases h
  | succ n ih =>
    rw [interpret] at h ⊢
    cases hrun : Exec.step.run m with
    | error e k =>
      rw [hrun] at h
      cases h
    | ok signal k =>
      rw [hrun] at h
      cases signal with
      | next | printed => exact ih h
      | exit e =>
        obtain rfl := Outcome.exited.inj h
        rfl

/-- A machine whose script has yielded is suspended. -/
theorem status_resume {m : Machine} {budget : Nat}
    (h : (m.resume budget).outcome = .exited .yielded) :
    (m.resume budget).machine.status = .suspended := by
  rw [resume] at h ⊢
  split at h
  · exact status_interpret h
  · exact status_interpret h
  · cases h

end Machine

namespace Component

variable {budget : Nat} {pool : Pool} {slots : List (Option Handle)} {slot : Option Handle}

/-- There are as many scripts as handles. -/
theorem size_eq (c : Component) : c.size = c.handles.length := by
  rw [handles, List.length_filterMap_eq_countP]
  rfl

/-- The pool after the script on one of its machines has been resumed: if it does not go on, the
machine is given back. -/
def resumeScript (budget : Nat) (pool : Pool) (h : Handle) : Pool :=
  match pool.get? h with
  | none => pool
  | some m =>
    let r := m.resume budget
    if r.outcome.goesOn then pool.put h r.machine else giveBack (pool.put h r.machine) h

/-- Whether the script on a machine goes on. -/
def keeps (budget : Nat) (pool : Pool) (h : Handle) : Bool :=
  (pool.get? h).any fun m => (m.resume budget).outcome.goesOn

/-- A machine that is given back is no longer named. -/
theorem get?_giveBack (pool : Pool) (h k : Handle) :
    (giveBack pool h).get? k = if h = k then none else pool.get? k := by
  cases hh : pool.get? h with
  | none =>
    rw [giveBack, Pool.reclaim_of_get?_none hh]
    by_cases heq : h = k
    · rw [if_pos heq, ← heq, hh]
    · rw [if_neg heq]
  | some m => rw [giveBack_of_get? hh, Pool.get?_takeBack (by rw [hh]; rfl)]

/-- When some handles are given back these are refused, and all others are as they were. -/
theorem get?_giveBackAll (handles : List Handle) (pool : Pool) (k : Handle) :
    (handles.foldl giveBack pool).get? k = if k ∈ handles then none else pool.get? k := by
  induction handles generalizing pool with
  | nil => rfl
  | cons h handles ih =>
    rw [List.foldl_cons, ih, get?_giveBack]
    by_cases heq : h = k
    · rw [if_pos heq, ite_self, heq, if_pos List.mem_cons_self]
    · simp only [if_neg heq, List.mem_cons, or_iff_right (Ne.symm heq)]

/-- A pool stays in order when machines are given back. -/
theorem consistent_giveBackAll (hpool : pool.Consistent) (handles : List Handle) :
    (handles.foldl giveBack pool).Consistent := by
  induction handles generalizing pool with
  | nil => exact hpool
  | cons h handles ih => exact ih (hpool.after (.reclaim h))

/-- Resuming the script on one machine does to it what it does to a machine alone, and nothing to
the others. -/
theorem get?_resumeScript (budget : Nat) (pool : Pool) (h k : Handle) :
    (resumeScript budget pool h).get? k =
      if h = k then (Alone.tickSlot budget (pool.get? k)).2 else pool.get? k := by
  rw [resumeScript]
  cases hh : pool.get? h with
  | none =>
    by_cases heq : h = k
    · rw [if_pos heq, ← heq, hh]
      rfl
    · rw [if_neg heq]
  | some m =>
    have hput := pool.get?_put h (m.resume budget).machine k
    by_cases heq : h = k
    · subst heq
      rw [if_pos rfl, hh, Option.map_some] at hput
      rw [if_pos rfl, hh, Alone.tickSlot]
      dsimp only
      split
      · exact hput
      · rw [get?_giveBack, if_pos rfl]
    · rw [if_neg heq] at hput ⊢
      dsimp only
      split
      · exact hput
      · rw [get?_giveBack, if_neg heq, hput]

/-- A pool stays in order when a script is resumed. -/
theorem consistent_resumeScript (hpool : pool.Consistent) (budget : Nat) (h : Handle) :
    (resumeScript budget pool h).Consistent := by
  rw [resumeScript]
  split
  · exact hpool
  · dsimp only
    split
    · exact hpool.put h _
    · exact (hpool.put h _).after (.reclaim h)

theorem consistent_resumeAll (hpool : pool.Consistent) (budget : Nat) (handles : List Handle) :
    (handles.foldl (resumeScript budget) pool).Consistent := by
  induction handles generalizing pool with
  | nil => exact hpool
  | cons h handles ih => exact ih (consistent_resumeScript hpool budget h)

/-- Resuming the scripts on several machines, each once. -/
theorem get?_resumeAll {handles : List Handle} (hnodup : handles.Nodup) (budget : Nat) (pool : Pool)
    (k : Handle) :
    (handles.foldl (resumeScript budget) pool).get? k =
      if k ∈ handles then (Alone.tickSlot budget (pool.get? k)).2 else pool.get? k := by
  induction handles generalizing pool with
  | nil => rfl
  | cons h handles ih =>
    obtain ⟨hh, hnodup'⟩ := List.nodup_cons.mp hnodup
    rw [List.foldl_cons, ih hnodup', get?_resumeScript]
    by_cases heq : h = k
    · subst heq
      rw [if_neg hh, if_pos rfl, if_pos List.mem_cons_self]
    · have hmem : k ∈ h :: handles ↔ k ∈ handles := by
        rw [List.mem_cons, or_iff_right (Ne.symm heq)]
      rw [if_neg heq]
      simp only [hmem]

/-- What a tick does with a slot: its report is that of a machine alone, and the handle stays if the
script goes on. -/
theorem tickSlot_eq (hslot : ∀ h, slot = some h → (pool.get? h).isSome) (budget : Nat) :
    tickSlot budget slot pool =
    ((Alone.tickSlot budget (slot.bind pool.get?)).1, slot.filter (keeps budget pool),
      slot.toList.foldl (resumeScript budget) pool) := by
  cases slot with
  | none => rfl
  | some h =>
    obtain ⟨m, hm⟩ := Option.isSome_iff_exists.mp (hslot h rfl)
    rw [tickSlot_of_get? hm, Option.bind_some, hm, Alone.tickSlot, Option.toList_some,
      List.foldl_cons, List.foldl_nil, resumeScript, hm]
    cases hgoes : (m.resume budget).outcome.goesOn <;>
      simp [Option.filter, keeps, hm, hgoes]

/-- A tick resumes the scripts in the order of their slots, each on the machine as it was before. -/
theorem tickSlots_eq (hslots : ∀ h ∈ slots.filterMap id, (pool.get? h).isSome)
    (hnodup : (slots.filterMap id).Nodup) (budget : Nat) :
    tickSlots budget slots pool =
    (slots.map fun slot => (Alone.tickSlot budget (slot.bind pool.get?)).1,
      slots.map (Option.filter (keeps budget pool)), (slots.filterMap id).foldl
      (resumeScript budget) pool) := by
  induction slots generalizing pool with
  | nil => rfl
  | cons slot slots ih =>
    have hslot : ∀ h, slot = some h → (pool.get? h).isSome := by
      rintro h rfl
      exact hslots h (mem_handles.mpr List.mem_cons_self)
    have hrest : (slots.filterMap id).Nodup :=
      hnodup.sublist ((List.sublist_cons_self slot slots).filterMap id)
    have hsplit : (slot :: slots).filterMap id = slot.toList ++ slots.filterMap id := by
      cases slot <;> rfl
    -- the machines of the later slots are as they were
    have hsame : ∀ h ∈ slots.filterMap id, (slot.toList.foldl (resumeScript budget) pool).get? h =
      pool.get? h := by
      intro h hmem
      cases slot with
      | none => rfl
      | some k =>
        rw [Option.toList_some, List.foldl_cons, List.foldl_nil, get?_resumeScript, if_neg]
        rintro rfl
        exact (List.nodup_cons.mp hnodup).1 hmem
    have hreports : (slots.map fun slot' =>
          (Alone.tickSlot budget
            (slot'.bind (slot.toList.foldl (resumeScript budget) pool).get?)).1) =
        slots.map fun slot' => (Alone.tickSlot budget (slot'.bind pool.get?)).1 := by
      refine List.map_congr_left fun slot' hmem => ?_
      cases slot' with
      | none => rfl
      | some h => rw [Option.bind_some, Option.bind_some, hsame h (mem_handles.mpr hmem)]
    have hkept : slots.map (Option.filter
      (keeps budget (slot.toList.foldl (resumeScript budget) pool))) =
        slots.map (Option.filter (keeps budget pool)) := by
      refine List.map_congr_left fun slot' hmem => ?_
      cases slot' with
      | none => rfl
      | some h => rw [Option.filter, Option.filter, keeps, keeps, hsame h (mem_handles.mpr hmem)]
    have hslots' : ∀ h ∈ slots.filterMap id,
      ((slot.toList.foldl (resumeScript budget) pool).get? h).isSome := by
      intro h hmem
      rw [hsame h hmem]
      exact hslots h (hsplit ▸ List.mem_append_right _ hmem)
    rw [tickSlots, tickSlot_eq hslot]
    dsimp only
    rw [ih hslots' hrest, hreports, hkept, hsplit, List.foldl_append]
    rfl

/-- A script goes on alone just where its handle is kept. -/
theorem isSome_tickSlot (budget : Nat) (pool : Pool) (h : Handle) :
    (Alone.tickSlot budget (pool.get? h)).2.isSome = keeps budget pool h := by
  rw [keeps]
  cases pool.get? h with
  | none => rfl
  | some m => cases hgoes : (m.resume budget).outcome.goesOn <;> simp [Alone.tickSlot, hgoes]

/-- The handles that are kept are those that pass the test. -/
theorem filterMap_filter (f : Handle → Bool) (slots : List (Option Handle)) :
    (slots.map (Option.filter f)).filterMap id = (slots.filterMap id).filter f := by
  induction slots with
  | nil => rfl
  | cons slot slots ih =>
    cases slot with
    | none => exact ih
    | some h => cases hf : f h <;> simpa [Option.filter, hf] using ih

theorem mem_handles_of_handle? {c : Component} {j : Nat} {h : Handle} (hj : c.handle? j = some h) :
    h ∈ c.handles :=
  mem_handles.mpr (List.mem_of_getElem? (Option.join_eq_some_iff.mp hj))

/-- A handle that is listed once is in one slot. -/
theorem eq_of_nodup {h : Handle} {j j' : Nat} (hnodup : (slots.filterMap id).Nodup)
    (hj : slots[j]? = some (some h)) (hj' : slots[j']? = some (some h)) : j = j' := by
  induction slots generalizing j j' with
  | nil => cases hj
  | cons slot slots ih =>
    have hrest : (slots.filterMap id).Nodup :=
      hnodup.sublist ((List.sublist_cons_self slot slots).filterMap id)
    have hfirst : slot = some h → ∀ i : Nat, slots[i]? ≠ some (some h) := by
      rintro rfl i hi
      exact (List.nodup_cons.mp hnodup).1 (mem_handles.mpr (List.mem_of_getElem? hi))
    cases j with
    | zero =>
      cases j' with
      | zero => rfl
      | succ j' => exact absurd hj' (hfirst (Option.some.inj hj) j')
    | succ j =>
      cases j' with
      | zero => exact absurd hj (hfirst (Option.some.inj hj') j)
      | succ j' => exact congrArg Nat.succ (ih hrest hj hj')

section

variable {c : Component} {j : Nat} {h : Handle} (haccepted : ∀ h ∈ c.handles, (pool.get? h).isSome)
  (hnodup : c.handles.Nodup) (budget : Nat)

include haccepted hnodup

/-- The report has one entry for each slot, all of them about the pool as it was before the tick. -/
theorem report_tick : (c.tick budget pool).1.slots =
    c.slots.map fun slot => (Alone.tickSlot budget (slot.bind pool.get?)).1 :=
  congrArg Prod.fst (tickSlots_eq haccepted hnodup budget)

theorem slots_tick : (c.tick budget pool).2.1.slots = c.slots.map
    (Option.filter (keeps budget pool)) :=
  congrArg (·.2.1) (tickSlots_eq haccepted hnodup budget)

/-- The scripts are resumed one after the other, in the order of their slots. -/
theorem pool_tick : (c.tick budget pool).2.2 = c.handles.foldl (resumeScript budget) pool :=
  congrArg (·.2.2) (tickSlots_eq haccepted hnodup budget)

theorem handle?_tick : (c.tick budget pool).2.1.handle? j = (c.handle? j).filter
    (keeps budget pool) := by
  rw [handle?, slots_tick haccepted hnodup, List.getElem?_map, handle?]
  cases c.slots[j]? <;> rfl

/-- An occupied slot is reported as resumed, with the outcome and the text of its own machine. -/
theorem report_of_handle? (hj : c.handle? j = some h) : ∃ m, pool.get? h = some m ∧
    (c.tick budget pool).1.slots[j]? = some
    (.resumed (m.resume budget).outcome (m.resume budget).text) := by
  have hslot : c.slots[j]? = some (some h) := Option.join_eq_some_iff.mp hj
  obtain ⟨m, hm⟩ := Option.isSome_iff_exists.mp
    (haccepted h (mem_handles.mpr (List.mem_of_getElem? hslot)))
  refine ⟨m, hm, ?_⟩
  rw [report_tick haccepted hnodup, List.getElem?_map, hslot, Option.map_some, Option.bind_some, hm]
  rfl

/-- A slot without a script is reported as vacant. -/
theorem report_of_vacant (hlt : j < slotCount) (hj : c.handle? j = none) :
    (c.tick budget pool).1.slots[j]? = some .vacant := by
  have hslot : c.slots[j]? = some none := by
    rw [handle?, List.getElem?_eq_getElem (c.length_slots.symm ▸ hlt), Option.join_some] at hj
    rw [List.getElem?_eq_getElem (c.length_slots.symm ▸ hlt), hj]
  rw [report_tick haccepted hnodup, List.getElem?_map, hslot]
  rfl

/-- If all scripts come back, those that have yielded keep their slots. -/
theorem handle?_tick_iff
    (hreturns : ∀ text, .resumed .unfinished text ∉ (c.tick budget pool).1.slots) :
    (c.tick budget pool).2.1.handle? j = some h ↔
      c.handle? j = some h ∧ ∃ text, (c.tick budget pool).1.slots[j]? = some
      (.resumed (.exited .yielded) text) := by
  rw [handle?_tick haccepted hnodup, Option.filter_eq_some_iff]
  refine and_congr_right fun hj => ?_
  obtain ⟨m, hm, hreport⟩ := report_of_handle? haccepted hnodup budget hj
  rw [keeps, hm, Option.any_some, hreport]
  constructor
  · intro hgoes
    refine ⟨(m.resume budget).text, ?_⟩
    cases houtcome : (m.resume budget).outcome with
    | exited e =>
      cases e with
      | yielded => rfl
      | finished =>
        rw [houtcome] at hgoes
        cases hgoes
    | faulted e =>
      rw [houtcome] at hgoes
      cases hgoes
    | unfinished =>
      rw [houtcome] at hreport
      exact absurd (List.mem_of_getElem? hreport) (hreturns _)
  · rintro ⟨text, heq⟩
    rw [(SlotReport.resumed.inj (Option.some.inj heq)).1]
    rfl

/-- The machine of a script that has yielded is suspended. -/
theorem suspended_of_yielded {text : String} (hj : c.handle? j = some h)
    (hyielded : (c.tick budget pool).1.slots[j]? = some (.resumed (.exited .yielded) text)) :
    ∃ m, (c.tick budget pool).2.2.get? h = some m ∧ m.status = .suspended := by
  obtain ⟨m, hm, hreport⟩ := report_of_handle? haccepted hnodup budget hj
  rw [hyielded] at hreport
  have houtcome := (SlotReport.resumed.inj (Option.some.inj hreport)).1.symm
  refine ⟨(m.resume budget).machine, ?_, Machine.status_resume houtcome⟩
  rw [pool_tick haccepted hnodup, get?_resumeAll hnodup, if_pos (mem_handles_of_handle? hj), hm,
    Alone.tickSlot, houtcome]
  rfl

/-- As many scripts are resumed as there are. -/
theorem countP_isResumed : (c.tick budget pool).1.slots.countP SlotReport.isResumed = c.size := by
  rw [report_tick haccepted hnodup, List.countP_map, size]
  refine List.countP_congr fun slot hmem => ?_
  cases slot with
  | none => rfl
  | some h =>
    obtain ⟨m, hm⟩ := Option.isSome_iff_exists.mp (haccepted h (mem_handles.mpr hmem))
    rw [Function.comp_apply, Option.bind_some, hm]
    rfl

end

/-! ## One use of an entity -/

/-- A use of an entity changes the handles that it keeps and, of those that the pool accepts, these
alone. -/
theorem use_accounts {c : Component} (hpool : pool.Consistent)
    (haccepted : ∀ h ∈ c.handles, (pool.get? h).isSome)
    (hnodup : c.handles.Nodup) (u : Use) :
    (c.use pool u).2.2.Consistent ∧ (c.use pool u).2.1.handles.Nodup ∧
      (∀ h, ((c.use pool u).2.2.get? h).isSome ↔
        h ∈ (c.use pool u).2.1.handles ∨ (pool.get? h).isSome ∧ h ∉ c.handles) ∧
      ∀ h ∈ (c.use pool u).2.1.handles, h ∈ c.handles ∨ pool.get? h = none := by
  -- the handles that are accepted are those of the entity and those of others
  have hsplit : ∀ h, (pool.get? h).isSome ↔ h ∈ c.handles ∨ (pool.get? h).isSome ∧
    h ∉ c.handles := by
    intro h
    by_cases hmem : h ∈ c.handles
    · exact ⟨fun _ => .inl hmem, fun _ => haccepted h hmem⟩
    · exact ⟨fun hsome => .inr ⟨hsome, hmem⟩, fun hor => hor.elim (absurd · hmem) And.left⟩
  cases u with
  | attach p =>
    rw [use, attach]
    cases hfind : c.slots.findIdx? Option.isNone with
    | none => exact ⟨hpool, hnodup, hsplit, fun h => .inl⟩
    | some i =>
      have hi : c.slots[i]? = some none := by
        obtain ⟨hlt, hnone, -⟩ := List.findIdx?_eq_some_iff_getElem.mp hfind
        rw [List.getElem?_eq_getElem hlt, Option.isNone_iff_eq_none.mp hnone]
      obtain ⟨m, -, hget⟩ := hpool.get?_request
      have hnew : pool.request.2.get? pool.request.1 = some m := (hget _).trans (if_pos rfl)
      have hhandles := handles_set hi pool.request.1
      -- the new handle was refused until now, so the entity does not keep it yet
      have hfresh : pool.request.1 ∉ c.handles := fun hmem => by
        have hsome := haccepted _ hmem
        rw [hpool.get?_request_fst] at hsome
        cases hsome
      simp only [hnew]
      refine ⟨hpool.request.put _ _, ?_, fun h => ?_, fun h hmem => ?_⟩
      · exact hhandles.nodup_iff.mpr (List.nodup_cons.mpr ⟨hfresh, hnodup⟩)
      · rw [Pool.isSome_put, hget, handles, hhandles.mem_iff, List.mem_cons]
        by_cases heq : pool.request.1 = h
        · rw [if_pos heq]
          exact ⟨fun _ => .inl (.inl heq.symm), fun _ => rfl⟩
        · rw [if_neg heq, or_iff_right (Ne.symm heq)]
          exact hsplit h
      · rcases List.mem_cons.mp (hhandles.mem_iff.mp hmem) with rfl | hmem
        · exact .inr hpool.get?_request_fst
        · exact .inl hmem
  | tick budget =>
    have htick := tickSlots_eq haccepted hnodup budget
    -- a tick drops the handles whose scripts do not go on
    have hkept : (c.use pool (.tick budget)).2.1.handles =
      c.handles.filter (keeps budget pool) := by
      show (tickSlots budget c.slots pool).2.1.filterMap id = _
      rw [htick]
      exact filterMap_filter _ _
    have hpool' : (c.use pool (.tick budget)).2.2 = c.handles.foldl (resumeScript budget) pool := by
      show (tickSlots budget c.slots pool).2.2 = _
      rw [htick]
      rfl
    rw [hkept, hpool']
    refine ⟨consistent_resumeAll hpool budget _, hnodup.filter _, fun h => ?_, fun h hmem => ?_⟩
    · rw [get?_resumeAll hnodup, List.mem_filter]
      split
      · next hmem => rw [isSome_tickSlot, and_iff_right hmem, or_iff_left fun hor => hor.2 hmem]
      · next hmem => rw [or_iff_right fun hor => hmem hor.1, and_iff_left hmem]
    · exact .inl (List.mem_of_mem_filter hmem)
  | detachAll =>
    refine ⟨consistent_giveBackAll hpool _, .nil, fun h => ?_, fun h hmem => by cases hmem⟩
    show ((c.handles.foldl giveBack pool).get? h).isSome ↔ h ∈ [] ∨ _
    rw [get?_giveBackAll, or_iff_right List.not_mem_nil]
    split
    · next hmem => exact ⟨fun hsome => (by cases hsome), fun hand => absurd hmem hand.2⟩
    · next hmem => rw [and_iff_left hmem]

end Component

/-! ## Several entities -/

/-- What is done with entities that share a pool: something with the scripts of one of them, or, by
the host, with a machine that is checked out. -/
inductive Crowd.Event where
  | script (i : Nat) (u : Component.Use)
  | operate (h : Handle) (act : Machine → Machine)

namespace Crowd

/-- The entities after an event. -/
def after (w : Crowd) : Event → Crowd
  | .script i u => (w.use i u).2
  | .operate h act => { w with pool := w.pool.after (.operate h act) }

/-- The handles that the pool accepts are those that the entities keep, each in one slot of one of
them. -/
structure Accounts (w : Crowd) : Prop where
  consistent : w.pool.Consistent
  accepted : ∀ i, ∀ h ∈ (w.components i).handles, (w.pool.get? h).isSome
  owned : ∀ h, (w.pool.get? h).isSome → ∃ i, h ∈ (w.components i).handles
  nodup : ∀ i, (w.components i).handles.Nodup
  apart : ∀ i j, ∀ h ∈ (w.components i).handles, h ∈ (w.components j).handles → i = j

variable {w : Crowd}

/-- No handle is kept and none is accepted. -/
theorem accounts_start (host : Host) (blockSize : Nat) : (start host blockSize).Accounts where
  consistent := Pool.consistent_new host blockSize
  accepted _ _ hmem := by cases hmem
  owned h hsome := by
    rw [Pool.get?_of_slot?_none rfl] at hsome
    cases hsome
  nodup _ := .nil
  apart _ _ _ hmem := by cases hmem

namespace Accounts

/-- The accounts are right after one use of the scripts of one entity. -/
theorem use (hw : w.Accounts) (i : Nat) (u : Component.Use) : (w.use i u).2.Accounts := by
  obtain ⟨hconsistent, hnodup, hsome, hnew⟩ :=
    Component.use_accounts hw.consistent (hw.accepted i) (hw.nodup i) u
  rw [Crowd.use]
  generalize (w.components i).use w.pool u = r at *
  have hself : Function.update w.components i r.2.1 i = r.2.1 := Function.update_self ..
  have hne : ∀ k, k ≠ i → Function.update w.components i r.2.1 k = w.components k :=
    fun k hk => Function.update_of_ne hk ..
  -- what another entity keeps is neither kept by this one nor handed out to it
  have hother : ∀ k, k ≠ i → ∀ h ∈ (w.components k).handles, h ∉ (w.components i).handles ∧
    h ∉ r.2.1.handles := by
    intro k hk h hmem
    have hout : h ∉ (w.components i).handles := fun hmem' => hk (hw.apart k i h hmem hmem')
    refine ⟨hout, fun hmem' => ?_⟩
    have haccepted := hw.accepted k h hmem
    rw [(hnew h hmem').resolve_left hout] at haccepted
    cases haccepted
  refine ⟨hconsistent, fun k h hmem => ?_, fun h hh => ?_, fun k => ?_, fun k l h hk hl => ?_⟩
  · dsimp only at hmem ⊢
    by_cases hki : k = i
    · rw [hki, hself] at hmem
      exact (hsome h).mpr (.inl hmem)
    · rw [hne k hki] at hmem
      exact (hsome h).mpr (.inr ⟨hw.accepted k h hmem, (hother k hki h hmem).1⟩)
  · dsimp only at hh ⊢
    rcases (hsome h).mp hh with hmem | ⟨hh, hmem⟩
    · exact ⟨i, hself.symm ▸ hmem⟩
    · obtain ⟨k, hk⟩ := hw.owned h hh
      refine ⟨k, ?_⟩
      rw [hne k fun heq => hmem (heq ▸ hk)]
      exact hk
  · dsimp only
    by_cases hki : k = i
    · rw [hki, hself]
      exact hnodup
    · rw [hne k hki]
      exact hw.nodup k
  · dsimp only at hk hl
    by_cases hki : k = i
    · by_cases hli : l = i
      · exact hki.trans hli.symm
      · rw [hki, hself] at hk
        rw [hne l hli] at hl
        exact absurd hk (hother l hli h hl).2
    · rw [hne k hki] at hk
      by_cases hli : l = i
      · rw [hli, hself] at hl
        exact absurd hl (hother k hki h hk).2
      · rw [hne l hli] at hl
        exact hw.apart k l h hk hl

/-- What the host does with a machine that is checked out does not change them. -/
theorem operate (hw : w.Accounts) (h : Handle) (act : Machine → Machine) :
    (w.after (.operate h act)).Accounts := by
  have hsome : ∀ k, ((w.pool.after (.operate h act)).get? k).isSome = (w.pool.get? k).isSome := by
    intro k
    rw [Pool.after]
    split
    · exact w.pool.isSome_put h _ k
    · rfl
  refine ⟨hw.consistent.after (.operate h act), fun i k hmem => ?_, fun k hk => ?_,
    hw.nodup, hw.apart⟩
  · exact (hsome k).trans (hw.accepted i k hmem)
  · exact hw.owned k ((hsome k).symm.trans hk)

theorem after (hw : w.Accounts) (event : Event) : (w.after event).Accounts := by
  cases event with
  | script i u => exact hw.use i u
  | operate h act => exact hw.operate h act

theorem afterAll (hw : w.Accounts) (events : List Event) :
    (events.foldl Crowd.after w).Accounts := by
  induction events generalizing w with
  | nil => exact hw
  | cons event events ih => exact ih (hw.after event)

/-- The machines that are checked out are as many as the slots that are occupied. -/
theorem checkedOut_eq (hw : w.Accounts) {n : Nat} (hn : ∀ i, n ≤ i → (w.components i).size = 0) :
    w.pool.checkedOut = ∑ i ∈ Finset.range n, (w.components i).size := by
  have hnodup : ((List.range n).flatMap fun i => (w.components i).handles).Nodup := by
    rw [List.nodup_flatMap]
    refine ⟨fun i _ => hw.nodup i, List.nodup_range.imp fun {i j} hne => ?_⟩
    exact List.disjoint_left.mpr fun h hi hj => hne (hw.apart i j h hi hj)
  have hmem : ∀ h, (h ∈ (List.range n).flatMap fun i => (w.components i).handles) ↔
    (w.pool.get? h).isSome := by
    intro h
    rw [List.mem_flatMap]
    constructor
    · rintro ⟨i, -, hi⟩
      exact hw.accepted i h hi
    · intro hh
      obtain ⟨i, hi⟩ := hw.owned h hh
      refine ⟨i, List.mem_range.mpr (Nat.lt_of_not_le fun hle => ?_), hi⟩
      have hsize := hn i hle
      rw [Component.size_eq, List.length_eq_zero_iff] at hsize
      rw [hsize] at hi
      cases hi
  rw [Pool.checkedOut_eq hnodup hmem, List.length_flatMap]
  simp only [Component.size_eq]
  rfl

end Accounts

/-- Only finitely many entities have scripts. -/
theorem exists_bound (host : Host) (blockSize : Nat) (events : List Event) :
    ∃ n, ∀ i, n ≤ i → ((events.foldl after (start host blockSize)).components i).size = 0 := by
  induction events using List.reverseRecOn with
  | nil => exact ⟨0, fun _ _ => rfl⟩
  | append_singleton events event ih =>
    obtain ⟨n, hn⟩ := ih
    rw [List.foldl_append, List.foldl_cons, List.foldl_nil]
    cases event with
    | operate h act => exact ⟨n, hn⟩
    | script i u =>
      refine ⟨max n (i + 1), fun k hk => ?_⟩
      rw [after, use]
      dsimp only
      rw [Function.update_of_ne (by omega)]
      exact hn k (by omega)

end Crowd

/-- Whatever is done with entities that share a pool, and by the host with the machines that are
checked out: every slot that is occupied holds a handle that the pool accepts, no handle is in two
slots, and as many machines are not idle as slots are occupied.  An attach that fails changes
nothing.  A tick resumes the script of each occupied slot once, in the order of the slots, on the
machine as it was; if they all come back, it reports each of them, and the slots of those that have
yielded stay occupied, with suspended machines, and no others. -/
theorem no_machine_leaked (host : Host) (blockSize : Nat) (events : List Crowd.Event) :
    let w := events.foldl Crowd.after (.start host blockSize)
    (∀ i j h, (w.components i).handle? j = some h → (w.pool.get? h).isSome) ∧
    (∀ i j i' j' h, (w.components i).handle? j = some h → (w.components i').handle? j' = some h →
      i = i' ∧ j = j') ∧
    (∃ n, ∀ i, n ≤ i → (w.components i).size = 0) ∧
    (∀ n, (∀ i, n ≤ i → (w.components i).size = 0) →
      w.pool.capacity - w.pool.available = ∑ i ∈ Finset.range n, (w.components i).size) ∧
    (∀ i p e, (w.use i (.attach p)).1 = .attached (.error e) → (w.use i (.attach p)).2 = w) ∧
    ∀ i budget,
      let c := w.components i
      let t := c.tick budget w.pool
      t.2.2 = c.handles.foldl (Component.resumeScript budget) w.pool ∧
      (∀ j h, c.handle? j = some h → ∃ m, w.pool.get? h = some m ∧
        t.1.slots[j]? = some (.resumed (m.resume budget).outcome (m.resume budget).text)) ∧
      (∀ j < slotCount, c.handle? j = none → t.1.slots[j]? = some .vacant) ∧
      ((∀ text, .resumed .unfinished text ∉ t.1.slots) →
        t.1.yielded + t.1.finished + t.1.faults.length = c.size ∧
        ∀ j h, (t.2.1.handle? j = some h ↔
            c.handle? j = some h ∧ ∃ text, t.1.slots[j]? = some
            (.resumed (.exited .yielded) text)) ∧
          (t.2.1.handle? j = some h → ∃ m, t.2.2.get? h = some m ∧ m.status = .suspended)) := by
  intro w
  have hw : w.Accounts := (Crowd.accounts_start host blockSize).afterAll events
  refine ⟨fun i j h hj => ?_, fun i j i' j' h hj hj' => ?_,
    Crowd.exists_bound host blockSize events, fun n hn => ?_,
    fun i p e he => ?_, fun i budget => ?_⟩
  -- every handle that is kept is accepted
  · exact hw.accepted i h (Component.mem_handles_of_handle? hj)
  -- no handle is kept twice
  · obtain rfl := hw.apart i i' h (Component.mem_handles_of_handle? hj)
      (Component.mem_handles_of_handle? hj')
    exact ⟨rfl, Component.eq_of_nodup (hw.nodup i) (Option.join_eq_some_iff.mp hj)
      (Option.join_eq_some_iff.mp hj')⟩
  -- the machines that are checked out are those in the slots
  · rw [hw.consistent.capacity_eq, Nat.add_sub_cancel_left]
    exact hw.checkedOut_eq hn
  -- a script that finds no slot takes no machine
  · rw [Crowd.use, Component.use] at he ⊢
    cases hattach : (w.components i).attach w.pool p with
    | error e' =>
      dsimp only
      rw [Function.update_eq_self]
    | ok r =>
      rw [hattach] at he
      cases Component.Answer.attached.inj he
  -- what a tick does
  · have haccepted := hw.accepted i
    have hnodup := hw.nodup i
    refine ⟨Component.pool_tick haccepted hnodup budget,
      fun j h hj => Component.report_of_handle? haccepted hnodup budget hj,
      fun j hlt hj => Component.report_of_vacant haccepted hnodup budget hlt hj, fun hreturns =>
      ⟨?_, fun j h => ?_⟩⟩
    · rw [TickReport.counts _ hreturns, Component.countP_isResumed haccepted hnodup]
    · have hiff := Component.handle?_tick_iff (j := j) (h := h) haccepted hnodup budget hreturns
      refine ⟨hiff, fun hj => ?_⟩
      obtain ⟨hj, text, hyielded⟩ := hiff.mp hj
      exact Component.suspended_of_yielded haccepted hnodup budget hj hyielded

end EntityScript
