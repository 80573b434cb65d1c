/-
# Entities do not notice each other

Entities that share a pool keep their machines apart (`Crowd.Shares`), whatever is done with them
and in whatever order.  So every script goes the way it would go alone, on a new machine of its own,
until it ends and its machine is idle again (`scripts_run_as_if_alone`).
-/
import EntityScript.Proofs.Component.Alone

namespace EntityScript

/-! ## Several entities -/

section Uses

variable (events : List (Nat × Component.Use)) (u : Component.Use)

theorem usesOf_cons_self (i : Nat) : usesOf i ((i, u) :: events) = u :: usesOf i events := by
  simp [usesOf]

theorem usesOf_cons_of_ne {i k : Nat} (hk : k ≠ i) :
    usesOf i ((k, u) :: events) = usesOf i events := by
  simp [usesOf, hk]

/-- The uses of an entity can be made one by one, as they come in between those of the others. -/
theorem Alone.afterAll_usesOf_cons (host : Host) (alone : Nat → Alone) (i k : Nat) :
    Alone.afterAll host (alone i) (usesOf i ((k, u) :: events)) =
      Alone.afterAll host (Function.update alone k (Alone.use host (alone k) u).2 i)
      (usesOf i events) := by
  by_cases hk : k = i
  · subst hk
    rw [usesOf_cons_self, Function.update_self]
    rfl
  · rw [usesOf_cons_of_ne events u hk, Function.update_of_ne (Ne.symm hk)]

end Uses

/-- The handles that the entities keep name different machines, each one as if it had been its
script's alone. -/
structure Crowd.Shares (w : Crowd) (host : Host) (alone : Nat → Alone) : Prop where
  serves : w.pool.Serves host
  holds : ∀ i, List.Forall₂ (Holds w.pool) (w.components i).slots (alone i)
  nodup : ∀ i, (w.components i).handles.Nodup
  apart : ∀ i j, i ≠ j → ∀ h ∈ (w.components i).handles, h ∉ (w.components j).handles

namespace Crowd

variable {w : Crowd} {host : Host} {alone : Nat → Alone} {i : Nat}

/-- Entities without scripts share any pool without machines. -/
theorem shares_start (host : Host) (blockSize : Nat) :
    (start host blockSize).Shares host fun _ => .empty where
  serves := .new host blockSize
  holds _ := Component.holds_empty _
  nodup _ := .nil
  apart _ _ _ h hmem := by cases hmem

namespace Shares

/-- The handles of an entity are accepted. -/
theorem isSome_of_mem (hw : w.Shares host alone) {h : Handle}
    (hmem : h ∈ (w.components i).handles) :
    (w.pool.get? h).isSome :=
  Component.mem_of_holds (hw.holds i) (mem_handles.mp hmem)

/-- What one entity does is what it would do alone, and the others stay as they are. -/
theorem use (hw : w.Shares host alone) (i : Nat) (u : Component.Use) :
    (w.use i u).1 = (Alone.use host (alone i) u).1 ∧
      (w.use i u).2.Shares host (Function.update alone i (Alone.use host (alone i) u).2) ∧
      (∀ k, k ≠ i → (w.use i u).2.components k = w.components k) ∧
      (u ≠ .detachAll → ∀ (j : Nat) (h : Handle), (w.components i).slots[j]? = some (some h) →
        ((w.use i u).2.components i).slots[j]? = some (some h) ∨
          ((w.use i u).2.components i).slots[j]? = some none ∧
          h.next ∈ (w.use i u).2.pool.free) := by
  obtain ⟨c, pool, huse, hpool, hslots, hnodup, hother, hkept⟩ :=
    Component.use_spec hw.serves (hw.holds i) (hw.nodup i) u
  rw [Crowd.use, huse]
  dsimp only
  have hself : Function.update w.components i c i = c := by rw [Function.update_self]
  have hne : ∀ k, k ≠ i → Function.update w.components i c k = w.components k :=
    fun k hk => by rw [Function.update_of_ne hk]
  -- the machines of the others were accepted before, under handles that the entity does not keep
  have hothers : ∀ k, k ≠ i → ∀ h ∈ (w.components k).handles, pool.get? h = w.pool.get? h ∧
    h ∉ c.handles :=
    fun k hk h hmem => hother h (hw.apart k i hk h hmem) (hw.isSome_of_mem hmem)
  refine ⟨rfl, ⟨hpool, fun k => ?_, fun k => ?_, fun k l hkl h => ?_⟩, hne, ?_⟩
  · by_cases hk : k = i
    · subst hk
      dsimp only
      rw [hself, Function.update_self]
      exact hslots
    · dsimp only
      rw [hne k hk, Function.update_of_ne hk]
      exact Holds.all_of_get?_eq (hw.holds k) fun h hmem => (hothers k hk h hmem).1
  · by_cases hk : k = i
    · subst hk
      dsimp only
      rw [hself]
      exact hnodup
    · dsimp only
      rw [hne k hk]
      exact hw.nodup k
  · dsimp only
    by_cases hk : k = i
    · subst hk
      rw [hself, hne l hkl.symm]
      exact fun hmem hmem' => (hothers l hkl.symm h hmem').2 hmem
    · rw [hne k hk]
      by_cases hl : l = i
      · subst hl
        rw [hself]
        exact fun hmem => (hothers k hk h hmem).2
      · rw [hne l hl]
        exact hw.apart k l hkl h
  · rw [hself]
    exact hkept

/-- Entities share their pool after any number of uses, each going on as it would alone. -/
theorem afterAll (hw : w.Shares host alone) (events : List (Nat × Component.Use)) :
    (w.afterAll events).Shares host fun i => Alone.afterAll host (alone i) (usesOf i events) := by
  induction events generalizing w alone with
  | nil => exact hw
  | cons event events ih =>
    obtain ⟨i, u⟩ := event
    obtain ⟨-, hnext, -⟩ := hw.use i u
    have hrest := ih hnext
    rw [funext fun k => Alone.afterAll_usesOf_cons events u host alone k i]
    exact hrest

/-- An entity with a part of a pool gives the answers that it would give alone. -/
theorem answers_eq (hw : w.Shares host alone) (i : Nat) (events : List (Nat × Component.Use)) :
    w.answers i events = Alone.answers host (alone i) (usesOf i events) := by
  induction events generalizing w alone with
  | nil => rfl
  | cons event events ih =>
    obtain ⟨k, u⟩ := event
    obtain ⟨hanswer, hnext, -⟩ := hw.use k u
    rw [answers]
    dsimp only
    rw [ih hnext]
    by_cases hk : k = i
    · subst hk
      rw [if_pos rfl, usesOf_cons_self, Alone.answers, Function.update_self, hanswer]
    · rw [if_neg hk, usesOf_cons_of_ne events u hk, Function.update_of_ne (Ne.symm hk)]

end Shares

end Crowd

/-! ## One script -/

namespace Machine

/-- The machine after several resumes. -/
def resumes (m : Machine) (budgets : List Nat) : Machine :=
  budgets.foldl (fun m budget => (m.resume budget).machine) m

/-- Every one of several resumes ends with a yield. -/
def Yields (m : Machine) : List Nat → Prop
  | [] => True
  | budget :: budgets =>
    (m.resume budget).outcome = .exited .yielded ∧ (m.resume budget).machine.Yields budgets

end Machine

/-- The budgets of the ticks among the uses of an entity. -/
def budgetsOf (uses : List Component.Use) : List Nat :=
  uses.filterMap fun
    | .tick budget => some budget
    | _ => none

namespace Alone

variable {host : Host} {a : Alone} {j : Nat} {m : Machine}

/-- A script that is attached does not take the place of another one. -/
theorem getElem?_attach (ha : a[j]? = some (some m)) (p : Program) :
    (a.attach host p).2[j]? = some (some m) := by
  rw [attach]
  split
  · exact ha
  · next k hfind =>
    obtain ⟨hlt, hnone, -⟩ := List.findIdx?_eq_some_iff_getElem.mp hfind
    dsimp only
    rw [List.getElem?_set_ne, ha]
    rintro rfl
    rw [List.getElem?_eq_getElem hlt, Option.isNone_iff_eq_none.mp hnone] at ha
    cases ha

/-- A script that is started alone is loaded on a new machine. -/
theorem attach_eq_ok {a' : Alone} {p : Program} (h : a.attach host p = (.ok j, a')) :
    a'[j]? = some (some ((Machine.new host).load p)) := by
  rw [attach] at h
  split at h
  · cases h
  · next k hfind =>
    obtain ⟨hlt, -⟩ := List.findIdx?_eq_some_iff_getElem.mp hfind
    cases h
    rw [List.getElem?_set_self hlt]

end Alone

namespace Crowd.Shares

variable {w : Crowd} {host : Host} {alone : Nat → Alone} {i j : Nat} {h : Handle} {m : Machine}

/-- The machine that a script would have alone is the one its slot names. -/
theorem slot_of_alone (hw : w.Shares host alone) (hm : (alone i)[j]? = some (some m)) :
    ∃ h, (w.components i).slots[j]? = some (some h) ∧ w.pool.get? h = some m := by
  obtain ⟨slot, hslot, hholds⟩ := Component.getElem?_of_forall₂ (hw.holds i).flip hm
  cases hholds with
  | occupied hh => exact ⟨_, hslot, hh⟩

/-- A slot whose script goes on keeps its machine. -/
theorem slot_of_kept (hw : w.Shares host alone) {P : Prop} (hm : (alone i)[j]? = some (some m))
    (hkept : (w.components i).slots[j]? = some (some h) ∨ (w.components i).slots[j]? =
      some none ∧ P) :
    (w.components i).slots[j]? = some (some h) ∧ w.pool.get? h = some m := by
  obtain ⟨k, hslot, hk⟩ := hw.slot_of_alone hm
  rcases hkept with hsame | ⟨hnone, -⟩
  · rw [hslot] at hsame
    cases hsame
    exact ⟨hslot, hk⟩
  · rw [hslot] at hnone
    cases hnone

/-- A slot whose script has ended is free. -/
theorem slot_of_not_kept (hw : w.Shares host alone) {P : Prop} (hm : (alone i)[j]? = some none)
    (hkept : (w.components i).slots[j]? = some (some h) ∨ (w.components i).slots[j]? =
      some none ∧ P) :
    (w.components i).slots[j]? = some none ∧ P := by
  obtain ⟨slot, hslot, hholds⟩ := Component.getElem?_of_forall₂ (hw.holds i).flip hm
  cases hholds
  exact hkept.resolve_left fun hsame => by rw [hslot] at hsame; cases hsame

/-- While a script yields and is not stopped, it keeps its slot and its machine, whatever else is
done. -/
theorem stays (hw : w.Shares host alone) (hslot : (w.components i).slots[j]? = some (some h))
    (hm : (alone i)[j]? = some (some m)) (events : List (Nat × Component.Use))
    (hstop : (i, .detachAll) ∉ events) (hyields : m.Yields (budgetsOf (usesOf i events))) :
    ∃ alone', (w.afterAll events).Shares host alone' ∧
      ((w.afterAll events).components i).slots[j]? = some (some h) ∧
      (alone' i)[j]? = some (some (m.resumes (budgetsOf (usesOf i events)))) := by
  induction events generalizing w alone m with
  | nil => exact ⟨alone, hw, hslot, hm⟩
  | cons event events ih =>
    obtain ⟨k, u⟩ := event
    obtain ⟨-, hnext, hother, hkept⟩ := hw.use k u
    rw [List.mem_cons, not_or] at hstop
    by_cases hk : k = i
    · subst hk
      rw [usesOf_cons_self] at hyields ⊢
      cases u with
      | attach p =>
        have hm' : ((alone k).attach host p).2[j]? = some (some m) := Alone.getElem?_attach hm p
        have hslot' := hnext.slot_of_kept (by rw [Function.update_self]; exact hm')
          (hkept (fun heq => by cases heq) j h hslot)
        exact ih hnext hslot'.1 (by rw [Function.update_self]; exact hm') hstop.2 hyields
      | tick budget =>
        obtain ⟨hyield, hyields⟩ := hyields
        have hm' : (Alone.use host (alone k) (.tick budget)).2[j]? =
          some (some (m.resume budget).machine) := by
          rw [Alone.use, List.getElem?_map, hm, Option.map_some, Alone.tickSlot, hyield]
          rfl
        have hslot' := hnext.slot_of_kept (by rw [Function.update_self]; exact hm')
          (hkept (fun heq => by cases heq) j h hslot)
        exact ih hnext hslot'.1 (by rw [Function.update_self]; exact hm') hstop.2 hyields
      | detachAll => exact absurd rfl hstop.1
    · rw [usesOf_cons_of_ne events u hk] at hyields ⊢
      -- another component was used, which leaves the slots of this one alone
      have hslot' : ((w.use k u).2.components i).slots[j]? = some (some h) := by
        rw [hother i (Ne.symm hk)]
        exact hslot
      exact ih hnext hslot' (by rw [Function.update_of_ne (Ne.symm hk)]; exact hm) hstop.2 hyields

/-- A tick reports of a script what it would do alone.  If it yields it keeps its slot and its
machine, and if it ends the slot becomes free and the machine idle. -/
theorem tick_spec (hw : w.Shares host alone) (hslot : (w.components i).slots[j]? = some (some h))
    (hm : (alone i)[j]? = some (some m)) (budget : Nat) :
    ∃ report, (w.use i (.tick budget)).1 = .ticked report ∧
      report.slots[j]? = some (.resumed (m.resume budget).outcome (m.resume budget).text) ∧
      if (m.resume budget).outcome.goesOn then
        ((w.use i (.tick budget)).2.components i).slots[j]? = some (some h) ∧
          (w.use i (.tick budget)).2.pool.get? h = some (m.resume budget).machine
      else
        ((w.use i (.tick budget)).2.components i).slots[j]? = some none ∧
          (w.use i (.tick budget)).2.pool.get? h = none ∧
          h.next ∈ (w.use i (.tick budget)).2.pool.free := by
  obtain ⟨hanswer, hnext, -, hkept⟩ := hw.use i (.tick budget)
  have hm' : (Function.update alone i (Alone.use host (alone i) (.tick budget)).2 i)[j]? =
      some (if (m.resume budget).outcome.goesOn then some (m.resume budget).machine else none) := by
    rw [Function.update_self, Alone.use, List.getElem?_map, hm]
    rfl
  refine ⟨_, hanswer, ?_, ?_⟩
  · rw [List.getElem?_map, hm]
    rfl
  · cases hgoes : (m.resume budget).outcome.goesOn with
    | true =>
      rw [if_pos rfl]
      rw [hgoes, if_pos rfl] at hm'
      exact hnext.slot_of_kept hm' (hkept (fun heq => by cases heq) j h hslot)
    | false =>
      rw [if_neg Bool.false_ne_true]
      rw [hgoes, if_neg Bool.false_ne_true] at hm'
      obtain ⟨hnone, hfree⟩ := hnext.slot_of_not_kept hm'
        (hkept (fun heq => by cases heq) j h hslot)
      obtain ⟨s, hs, huse, -⟩ := (hnext.serves.consistent.mem_free _).mp hfree
      exact ⟨hnone, Pool.get?_of_not_inUse ((Pool.slot?_congr h.samePlace_next).trans hs) huse,
        hfree⟩

end Crowd.Shares

theorem Component.handle?_eq {c : Component} {j : Nat} {slot : Option Handle}
    (hj : c.slots[j]? = some slot) :
    c.handle? j = slot := by
  rw [handle?, hj]
  rfl

/-- A script that one of several entities attaches goes as it would go alone.  As long as it yields
and the entity does not stop all its scripts, it keeps its slot and its machine, and the next tick
reports what the next resume of a new machine with the script comes to.  If that is a yield it goes
on; if the script ends or fails, the slot becomes free and the machine idle.  Nothing that an entity
is told depends on the others, nor on how much the pool grows by. -/
theorem scripts_run_as_if_alone (host : Host) (blockSize : Nat)
    (before later : List (Nat × Component.Use)) (i j : Nat) (p : Program) (budget : Nat)
    (hattach : (((Crowd.start host blockSize).afterAll before).use i (.attach p)).1 =
      .attached (.ok j))
    (hstop : (i, .detachAll) ∉ later)
    (hyields : ((Machine.new host).load p).Yields (budgetsOf (usesOf i later))) :
    let w := (Crowd.start host blockSize).afterAll (before ++ (i, .attach p) :: later)
    let w' := (w.use i (.tick budget)).2
    let m := ((Machine.new host).load p).resumes (budgetsOf (usesOf i later))
    let r := m.resume budget
    (∃ h report, (w.components i).handle? j = some h ∧ w.pool.get? h = some m ∧
      (w.use i (.tick budget)).1 = .ticked report ∧
      report.slots[j]? = some (.resumed r.outcome r.text) ∧
      (r.outcome = .exited .yielded → (w'.components i).handle? j = some h ∧
        w'.pool.get? h = some r.machine) ∧
      (r.outcome = .exited .finished ∨ (∃ e, r.outcome = .faulted e) →
        (w'.components i).handle? j = none ∧ w'.pool.get? h = none ∧ h.next ∈ w'.pool.free)) ∧
    ∀ (size : Nat) (events events' : List (Nat × Component.Use)), usesOf i events' =
    usesOf i events →
      (Crowd.start host size).answers i events' =
      (Crowd.start host blockSize).answers i events := by
  intro w w' m r
  refine ⟨?_, fun size events events' heq => ?_⟩
  · obtain ⟨alone, hbefore⟩ : ∃ alone,
      ((Crowd.start host blockSize).afterAll before).Shares host alone :=
      ⟨_, (Crowd.shares_start host blockSize).afterAll before⟩
    -- the slot is the one that the script would get if it were alone
    obtain ⟨hanswer, hattached, -⟩ := hbefore.use i (.attach p)
    rw [hattach] at hanswer
    have hloaded : (Function.update alone i (Alone.use host (alone i) (.attach p)).2 i)[j]? =
        some (some ((Machine.new host).load p)) := by
      rw [Function.update_self]
      exact Alone.attach_eq_ok (Prod.ext (Component.Answer.attached.inj hanswer).symm rfl)
    obtain ⟨h, hslot, -⟩ := hattached.slot_of_alone hloaded
    -- it keeps the slot as long as it yields, whatever the others do
    obtain ⟨alone', hshares, hslot', hm⟩ := hattached.stays hslot hloaded later hstop hyields
    have hw : w =
        (((Crowd.start host blockSize).afterAll before).use i (.attach p)).2.afterAll later :=
      List.foldl_append
    rw [← hw] at hshares hslot'
    obtain ⟨report, hticked, hreport, hrest⟩ := hshares.tick_spec hslot' hm budget
    refine ⟨h, report, Component.handle?_eq hslot',
      (hshares.slot_of_kept hm (P := True) (.inl hslot')).2, hticked,
      hreport, fun houtcome => ?_, fun houtcome => ?_⟩
    -- a yield leaves the machine in the slot
    · have hgoes : r.outcome.goesOn = true := by
        rw [houtcome]
        rfl
      rw [if_pos hgoes] at hrest
      exact ⟨Component.handle?_eq hrest.1, hrest.2⟩
    -- any other outcome gives it back
    · have hends : r.outcome.goesOn = false := by
        rcases houtcome with houtcome | ⟨e, houtcome⟩
        · rw [houtcome]
          rfl
        · rw [houtcome]
          rfl
      rw [if_neg (Bool.eq_false_iff.mp hends)] at hrest
      exact ⟨Component.handle?_eq hrest.1, hrest.2⟩
  -- the answers are those of the uses alone, in pools of any block size
  · rw [(Crowd.shares_start host size).answers_eq,
      (Crowd.shares_start host blockSize).answers_eq, heq]

/-- A script that prints a number, yields, and prints it again. -/
def Program.pausing : Program where
  main :=
    { id := ⟨0, 0⟩
      name := none
      arity := 0
      chunk := ⟨#[⟨.literal 0, 1⟩, ⟨.print, 1⟩, ⟨.yield, 2⟩, ⟨.literal 0, 3⟩, ⟨.print, 3⟩,
        ⟨.stop, 3⟩], [.int 7]⟩ }
  strings := []

/-- The script ends on the machine that another entity's script has ended on, between ticks of a
third entity. -/
theorem scripts_run_as_if_alone_pausing :
    let before : List (Nat × Component.Use) :=
      [(1, .attach .pausing), (1, .tick 9), (2, .attach .pausing), (1, .tick 9)]
    let later : List (Nat × Component.Use) := [(2, .tick 9), (0, .tick 9), (2, .tick 9)]
    let w := (Crowd.start .empty 1).afterAll (before ++ (0, .attach .pausing) :: later)
    (((Crowd.start .empty 1).afterAll before).use 0 (.attach .pausing)).1 = .attached (.ok 0) ∧
      (0, .detachAll) ∉ later ∧ ((Machine.new .empty).load .pausing).Yields [9] ∧
      ∃ h report, (w.components 0).handle? 0 = some h ∧ (w.use 0 (.tick 9)).1 = .ticked report ∧
        report.slots[0]? = some (.resumed (.exited .finished) "7\n") ∧
        ((w.use 0 (.tick 9)).2.components 0).handle? 0 = none := by
  intro before later w
  have hattach : (((Crowd.start .empty 1).afterAll before).use 0 (.attach .pausing)).1 =
    .attached (.ok 0) := by
    rfl
  have hstop : (0, .detachAll) ∉ later := by
    simp [later]
  have hyields : ((Machine.new .empty).load .pausing).Yields (budgetsOf (usesOf 0 later)) :=
    ⟨by rfl, trivial⟩
  obtain ⟨⟨h, report, hslot, -, hticked, hreport, -, hends⟩, -⟩ :=
    scripts_run_as_if_alone .empty 1 before later 0 0 .pausing 9 hattach hstop hyields
  exact ⟨hattach, hstop, hyields, h, report, hslot, hticked, hreport, (hends (.inl (by rfl))).1⟩

end EntityScript
