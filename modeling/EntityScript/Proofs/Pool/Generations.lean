/-
# Handles of earlier check-outs

Taking a machine back advances the generation of its slot, and nothing else does
(`Pool.generation_afterAll`).  So a handle that has been taken back is refused from then on, until
the generation has gone round: generations have 32 bits, and the pool accepts the handle again while
the slot is checked out after every 2 ^ 32 times that it has been taken back
(`reclaimed_handle_refused`).
-/
import EntityScript.Proofs.Pool.Invariant

namespace EntityScript

namespace Pool

/-- A use of a pool takes back the machine that a handle points at, under whatever generation. -/
def TakesBack (p : Pool) (h : Handle) : Use → Prop
  | .reclaim k => k.SamePlace h ∧ (p.get? k).isSome
  | .request | .operate _ _ => False

instance (p : Pool) (h : Handle) (use : Use) : Decidable (p.TakesBack h use) :=
  match use with
  | .reclaim _ => inferInstanceAs (Decidable (_ ∧ _))
  | .request | .operate _ _ => inferInstanceAs (Decidable False)

/-- How many of several uses take back the machine that a handle points at. -/
def rounds (p : Pool) (h : Handle) : List Use → Nat
  | [] => 0
  | use :: uses => (if p.TakesBack h use then 1 else 0) + (p.after use).rounds h uses

variable {p q : Pool} {h : Handle} {s : Slot}

/-- Slots stay where they are when a pool grows. -/
theorem slot?_stock (hs : p.slot? h = some s) : p.stock.slot? h = some s := by
  rw [stock]
  split
  · rw [slot?_free, slot?_grow, if_neg, hs]
    intro hblock
    rw [p.slot?_of_size_le (Nat.le_of_eq hblock.symm)] at hs
    cases hs
  · exact hs

/-- The generation of a slot advances when its machine is taken back, and at no other time. -/
theorem generation_after (hs : p.slot? h = some s) (use : Use) :
    ∃ t, (p.after use).slot? h = some t ∧
      t.generation = s.generation + UInt32.ofNat (if p.TakesBack h use then 1 else 0) := by
  -- requests and changes of machines leave the generation as it is
  have hsame : ∀ {t : Slot}, t.generation = s.generation →
      t.generation = s.generation + UInt32.ofNat (if False then 1 else 0) := by
    intro t ht
    rw [if_neg not_false, ht]
    exact (UInt32.add_zero _).symm
  cases use with
  | request =>
    obtain ⟨k, rest, -, hrequest⟩ := p.request_eq
    rw [after, hrequest, slot?_checkOut, slot?_stock hs]
    split
    · exact ⟨_, rfl, hsame rfl⟩
    · exact ⟨s, rfl, hsame rfl⟩
  | operate k act =>
    rw [after]
    split
    · rw [slot?_put, hs]
      split
      · refine ⟨_, rfl, hsame ?_⟩
        dsimp only
        split <;> rfl
      · exact ⟨s, rfl, hsame rfl⟩
    · exact ⟨s, hs, hsame rfl⟩
  | reclaim k =>
    rw [after, Component.giveBack]
    cases hk : p.get? k with
    | none =>
      -- a handle that is refused takes nothing back
      have htakes : ¬ p.TakesBack h (.reclaim k) := fun htakes => by
        rw [TakesBack, hk] at htakes
        cases htakes.2
      rw [reclaim_of_get?_none hk, if_neg htakes]
      exact ⟨s, hs, (UInt32.add_zero _).symm⟩
    | some m =>
      rw [reclaim_of_get? hk]
      dsimp only
      rw [slot?_takeBack, hs]
      by_cases hplace : k.SamePlace h
      · -- the handle that is accepted has the generation of its slot
        obtain ⟨t, ht, haccepts, -⟩ := get?_eq_some_iff.mp hk
        rw [slot?_congr hplace, hs] at ht
        cases ht
        rw [if_pos hplace, if_pos ⟨hplace, by rw [hk]; rfl⟩, (accepts_iff.mp haccepts).2]
        exact ⟨_, rfl, rfl⟩
      · rw [if_neg hplace, if_neg fun htakes => hplace htakes.1]
        exact ⟨s, rfl, (UInt32.add_zero _).symm⟩

/-- The generation of a slot is the one it had, and one more for each time it was taken back. -/
theorem generation_afterAll (hs : p.slot? h = some s) (uses : List Use) :
    ∃ t, (p.afterAll uses).slot? h = some t ∧
      t.generation = s.generation + UInt32.ofNat (p.rounds h uses) := by
  induction uses generalizing p s with
  | nil => exact ⟨s, hs, (UInt32.add_zero _).symm⟩
  | cons use uses ih =>
    obtain ⟨t, ht, hnext⟩ := generation_after hs use
    obtain ⟨u, hu, hrest⟩ := ih ht
    refine ⟨u, hu, ?_⟩
    rw [hrest, hnext, rounds, UInt32.ofNat_add, UInt32.add_assoc]

/-- A generation comes back after a multiple of `2 ^ 32` rounds, and not otherwise. -/
theorem generation_add_eq_iff (g : UInt32) (n : Nat) : g + UInt32.ofNat n = g ↔ 2 ^ 32 ∣ n := by
  rw [← UInt32.toNat_inj, UInt32.toNat_add, UInt32.toNat_ofNat', Nat.dvd_iff_mod_eq_zero]
  have hg := g.toNat_lt
  omega

end Pool

/-- A handle that has been taken back names no machine from then on, and is refused, whatever is
done with the pool: until its slot has been taken back 2 ^ 32 times, this one included, and at every
further multiple of that number.  Then it is the handle of the check-out of that time, if there is
one. -/
theorem reclaimed_handle_refused {p q : Pool} {h : Handle} (hq : p.reclaim h = .ok q)
    (uses : List Pool.Use) :
    let r := q.afterAll uses
    (r.get? h = none → r.reclaim h = .error (.notInUse h)) ∧
    ((r.get? h).isSome ↔ 2 ^ 32 ∣ q.rounds h uses + 1 ∧ ∃ s,
      r.slot? h = some s ∧ s.inUse = true) := by
  intro r
  obtain ⟨hh, rfl⟩ := Pool.of_reclaim_ok hq
  obtain ⟨m, hm⟩ := Option.isSome_iff_exists.mp hh
  obtain ⟨s, hs, -⟩ := Pool.get?_eq_some_iff.mp hm
  have htaken := p.slot?_takeBack h h
  rw [if_pos ⟨rfl, rfl⟩, hs, Option.map_some] at htaken
  obtain ⟨t, ht, hgen⟩ := Pool.generation_afterAll htaken uses
  -- the slot's generation is the handle's again if the rounds, with the first, make a multiple of 2
  -- ^ 32
  have haccepts : Pool.accepts t h = true ↔ 2 ^ 32 ∣ (p.takeBack h).rounds h uses + 1 ∧
    t.inUse = true := by
    rw [Pool.accepts_iff, and_comm, hgen, ← Pool.generation_add_eq_iff h.generation, Nat.add_comm,
      UInt32.ofNat_add, ← UInt32.add_assoc]
    rfl
  constructor
  · intro hnone
    rw [Pool.reclaim_of_get?_none hnone, ht]
    rfl
  · rw [Pool.get?_of_slot? ht]
    constructor
    · intro hsome
      split at hsome
      · next haccepted =>
        exact ⟨(haccepts.mp haccepted).1, t, ht, (haccepts.mp haccepted).2⟩
      · cases hsome
    · rintro ⟨hdvd, u, hu, huse⟩
      rw [ht] at hu
      cases hu
      rw [if_pos (haccepts.mpr ⟨hdvd, huse⟩)]
      rfl

/-- The same machine is handed out again, and the earlier handle is refused. -/
theorem reclaimed_handle_refused_next :
    ∃ q, ((Pool.new .empty 1).after .request).reclaim ⟨0, 0, 0⟩ = .ok q ∧ q.request.1 = ⟨0, 0, 1⟩ ∧
      (q.afterAll [.request]).get? ⟨0, 0, 0⟩ = none ∧
      (q.afterAll [.request]).reclaim ⟨0, 0, 0⟩ = .error (.notInUse ⟨0, 0, 0⟩) := by
  have hq : ((Pool.new .empty 1).after .request).reclaim ⟨0, 0, 0⟩ =
      .ok (((Pool.new .empty 1).after .request).takeBack ⟨0, 0, 0⟩) := by rfl
  obtain ⟨hrefused, haccepted⟩ := reclaimed_handle_refused hq [.request]
  have hnone : ((((Pool.new .empty 1).after .request).takeBack ⟨0, 0, 0⟩).afterAll [.request]).get?
    ⟨0, 0, 0⟩ =
      none := by
    refine Option.not_isSome_iff_eq_none.mp fun hsome => ?_
    have hrounds := (haccepted.mp hsome).1
    revert hrounds
    decide
  exact ⟨_, hq, by rfl, hnone, hrefused hnone⟩

/-! ## Generations go round -/

namespace Pool

/-- A pool with one machine, which is idle under a generation. -/
def solo (generation : UInt32) : Pool where
  host := .empty
  blockSize := 1
  blocks := #[#[⟨.new .empty, false, generation⟩]]
  free := [⟨0, 0, generation⟩]

/-- The machine is handed out and taken back several times, first under the given generation. -/
def turns (generation : UInt32) : Nat → List Use
  | 0 => []
  | n + 1 => .request :: .reclaim ⟨0, 0, generation⟩ :: turns (generation + 1) n

/-- A pool of one machine hands it out in the generation of its slot. -/
theorem get?_request_solo (generation : UInt32) :
    (solo generation).request.2.get? ⟨0, 0, generation⟩ = some (.new .empty) := by
  simp [solo, request, checkOut, modifySlot, get?, slot?, accepts]

/-- Each turn hands the machine out and takes it back, in the next generation. -/
theorem afterAll_turns (generation : UInt32) (n : Nat) :
    (solo generation).afterAll (turns generation n) = solo (generation + UInt32.ofNat n) := by
  induction n generalizing generation with
  | zero =>
    rw [show generation + UInt32.ofNat 0 = generation from UInt32.add_zero _]
    rfl
  | succ n ih =>
    have hturn : ((solo generation).after .request).after (.reclaim ⟨0, 0, generation⟩) =
      solo (generation + 1) := by
      have hback := reclaim_of_get? (get?_request_solo generation)
      rw [after, after, Component.giveBack, hback]
      rfl
    rw [turns, afterAll, List.foldl_cons, List.foldl_cons, hturn, ← afterAll, ih, Nat.add_comm n 1,
      UInt32.ofNat_add, ← UInt32.add_assoc]
    rfl

/-- Turns are made of requests and of giving back. -/
theorem mem_turns {generation : UInt32} {n : Nat} {use : Use} (huse : use ∈ turns generation n) :
    use = .request ∨ ∃ h, use = .reclaim h := by
  induction n generalizing generation with
  | zero => cases huse
  | succ n ih =>
    rcases List.mem_cons.mp huse with rfl | huse
    · exact .inl rfl
    · rcases List.mem_cons.mp huse with rfl | huse
      · exact .inr ⟨_, rfl⟩
      · exact ih huse

end Pool

/-- The first handle of a pool with one machine is accepted again, after it has been taken back and
the machine has been handed out 2 ^ 32 times more.  Pools number their handles alike, so that
another one, whose first machine is checked out, accepts it at once. -/
theorem reclaimed_handle_accepted :
    (Pool.new .empty 1).request.1 = ⟨0, 0, 0⟩ ∧
    (∃ q, (Pool.new .empty 1).request.2.reclaim ⟨0, 0, 0⟩ = .ok q ∧
      ∃ uses : List Pool.Use, (∀ use ∈ uses, use = .request ∨ ∃ h, use = .reclaim h) ∧
        ((q.afterAll uses).get? ⟨0, 0, 0⟩).isSome ∧ ((q.afterAll uses).reclaim ⟨0, 0, 0⟩).isOk) ∧
    ((Pool.new .empty 2).request.2.get? ⟨0, 0, 0⟩).isSome := by
  have hq : (Pool.new .empty 1).request.2.reclaim ⟨0, 0, 0⟩ = .ok (.solo 1) := by rfl
  have hlast : ((Pool.solo 1).afterAll (Pool.turns 1 (2 ^ 32 - 1) ++ [.request])).get? ⟨0, 0, 0⟩ =
      some (.new .empty) := by
    rw [Pool.afterAll, List.foldl_append]
    rw [show (Pool.turns 1 (2 ^ 32 - 1)).foldl Pool.after (Pool.solo 1) = _ from
      Pool.afterAll_turns 1 _]
    exact Pool.get?_request_solo 0
  refine ⟨by rfl, ⟨_, hq, Pool.turns 1 (2 ^ 32 - 1) ++ [.request], fun use huse => ?_, ?_, ?_⟩,
    by rfl⟩
  · rcases List.mem_append.mp huse with huse | huse
    · exact Pool.mem_turns huse
    · exact .inl (List.mem_singleton.mp huse)
  · rw [hlast]
    rfl
  · rw [Pool.reclaim_of_get? hlast]
    rfl

end EntityScript
