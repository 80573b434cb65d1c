/-
# Watching a machine

What a caller sees of a program that is resumed again and again (`Machine.seen`), and the same thing
instruction by instruction (`Machine.watch`).  Watching does not stop at a pause: it notes the pause
and goes on, as a caller who resumes the program at once.

Both views show the same: every sequence of calls shows what some number of instructions shows, and
every number of instructions is shown by some sequence of calls.
-/
import EntityScript.Proofs.Script.Meaning

namespace EntityScript

open Observation

@[simp] theorem Observation.ofText_append (s t : String) :
    ofText (s ++ t) = ofText s ++ ofText t := by
  simp [ofText]

/-- What a caller sees of one call: the text, and how the call ended. -/
def Run.seen (r : Run) : List Observation :=
  ofText r.text ++
    match r.outcome with
    | .exited e => [.exited e]
    | .faulted e => [.faulted e.fault]
    | .unfinished => []

namespace Machine

/-- What a caller sees of calls of `resume`, one for each budget, until the program does not
yield. -/
def seen : List Nat → Machine → List Observation
  | [], _ => []
  | budget :: budgets, m =>
    (m.resume budget).seen ++
      if (m.resume budget).outcome = .exited .yielded then seen budgets
      (m.resume budget).machine else []

/-- What is seen of one instruction, and the machine if it goes on. -/
def advance (m : Machine) : List Observation × Option Machine :=
  match Exec.step.run m with
  | .ok .next m => ([], some m)
  | .ok (.printed text) m => (ofText text, some m)
  | .ok (.exit .yielded) m => ([.exited .yielded], some { m with status := .running })
  | .ok (.exit .finished) _ => ([.exited .finished], none)
  | .error e _ => ([.faulted e], none)

/-- What is seen of a number of instructions, and the machine if it goes on. -/
def watch : Nat → Machine → List Observation × Option Machine
  | 0, m => ([], some m)
  | n + 1, m =>
    match m.advance with
    | (shown, some m) => (shown ++ (watch n m).1, (watch n m).2)
    | (shown, none) => (shown, none)

section

variable {m m' : Machine} {shown : List Observation} {k : Nat}

theorem watch_succ_some (h : m.advance = (shown, some m')) (n : Nat) :
    m.watch (n + 1) = (shown ++ (m'.watch n).1, (m'.watch n).2) := by
  rw [watch, h]

theorem watch_succ_none (h : m.advance = (shown, none)) (n : Nat) :
    m.watch (n + 1) = (shown, none) := by
  rw [watch, h]

/-- Watching on from where one has got to. -/
theorem watch_add (h : m.watch k = (shown, some m')) (n : Nat) :
    m.watch (k + n) = (shown ++ (m'.watch n).1, (m'.watch n).2) := by
  induction k generalizing m shown with
  | zero =>
    obtain ⟨rfl, hm⟩ := Prod.mk.inj h
    obtain rfl := Option.some.inj hm
    rw [Nat.zero_add]
    rfl
  | succ k ih =>
    rw [Nat.add_right_comm, watch]
    rw [watch] at h
    cases ha : m.advance with
    | mk first next =>
      rw [ha] at h
      cases next with
      | none => cases (Prod.mk.inj h).2
      | some m₁ =>
        obtain ⟨rfl, hm⟩ := Prod.mk.inj h
        have hrest : m₁.watch k = ((m₁.watch k).1, some m') := Prod.ext rfl hm
        simp only [ih hrest, List.append_assoc]

/-- When a machine has stopped there is nothing more to see. -/
theorem watch_add_none (h : m.watch k = (shown, none)) (n : Nat) :
    m.watch (k + n) = (shown, none) := by
  induction k generalizing m shown with
  | zero => cases (Prod.mk.inj h).2
  | succ k ih =>
    rw [Nat.add_right_comm, watch]
    rw [watch] at h
    cases ha : m.advance with
    | mk first next =>
      rw [ha] at h
      cases next with
      | none => exact h
      | some m₁ =>
        obtain ⟨rfl, hm⟩ := Prod.mk.inj h
        have hrest : m₁.watch k = ((m₁.watch k).1, none) := Prod.ext rfl hm
        simp only [ih hrest]

/-- One sees no less when one watches longer. -/
theorem watch_grows (m : Machine) {k n : Nat} (h : k ≤ n) : (m.watch k).1 <+: (m.watch n).1 := by
  obtain ⟨j, rfl⟩ := Nat.exists_eq_add_of_le h
  cases hw : m.watch k with
  | mk shown next =>
    cases next with
    | none =>
      simp only [watch_add_none hw, List.prefix_rfl]
    | some m' =>
      rw [watch_add hw]
      exact List.prefix_append _ _

/-- Of a machine that stops one sees no more than up to there. -/
theorem watch_upto_none (h : m.watch k = (shown, none)) (n : Nat) : (m.watch n).1 <+: shown := by
  rcases Nat.le_total n k with hle | hle
  · have hprefix := m.watch_grows hle
    rw [h] at hprefix
    exact hprefix
  · obtain ⟨j, rfl⟩ := Nat.exists_eq_add_of_le hle
    simp only [watch_add_none h, List.prefix_rfl]

/-- The last instruction of a program. -/
theorem watch_finished (h : Exec.step.run m = .ok (.exit .finished) m') :
    m.watch 1 = ([.exited .finished], none) := by
  rw [watch, advance, h]

end

/-! ## Calls -/

/-- What is seen of a call that starts with the machine `m` and has a budget of `n` instructions. -/
inductive Watched (n : Nat) (m : Machine) : Outcome → String → Machine → Prop where
  | unfinished {text : String} {m' : Machine} : m.watch n = (ofText text, some m') →
    Watched n m .unfinished text m'
  | yielded {k : Nat} {text : String} {m' : Machine} : k < n → m'.status = .suspended →
    m.watch (k + 1) = (ofText text ++ [.exited .yielded], some { m' with status := .running }) →
    Watched n m (.exited .yielded) text m'
  | finished {k : Nat} {text : String} {m' : Machine} : k ≤ n →
    m.watch k = (ofText text ++ [.exited .finished], none) → Watched n m (.exited .finished) text m'
  | faulted {k : Nat} {text : String} {m' : Machine} {e : RuntimeError} : k ≤ n →
    m.watch k = (ofText text ++ [.faulted e.fault], none) → Watched n m (.faulted e) text m'

/-- A call that begins with an instruction. -/
theorem Watched.after {n : Nat} {m m₁ m' : Machine} {first text : String} {outcome : Outcome}
    (hfirst : m.advance = (ofText first, some m₁)) (h : Watched n m₁ outcome text m') :
    Watched (n + 1) m outcome (first ++ text) m' := by
  have hwatch (k : Nat) := watch_succ_some hfirst k
  cases h with
  | unfinished hw => exact .unfinished (by rw [hwatch, hw, ofText_append])
  | yielded hk hs hw =>
    refine .yielded (Nat.succ_lt_succ hk) hs ?_
    rw [hwatch, hw, ofText_append, List.append_assoc]
  | finished hk hw =>
    refine .finished (Nat.succ_le_succ hk) ?_
    rw [hwatch, hw, ofText_append, List.append_assoc]
  | faulted hk hw =>
    refine .faulted (Nat.succ_le_succ hk) ?_
    rw [hwatch, hw, ofText_append, List.append_assoc]

/-- Whoever runs a machine has watched it for as many steps as the budget allows, and seen the text
of the run. -/
theorem interpret_watched (n : Nat) (m : Machine) (text : String) :
    ∃ more, (m.interpret n text).text = text ++ more ∧
      Watched n m (m.interpret n text).outcome more (m.interpret n text).machine := by
  induction n generalizing m text with
  | zero => exact ⟨"", by simp [interpret], .unfinished rfl⟩
  | succ n ih =>
    rw [interpret]
    cases hstep : Exec.step.run m with
    | error e m' =>
      refine ⟨"", by simp, .faulted (Nat.succ_le_succ (Nat.zero_le n)) ?_⟩
      have hadvance : m.advance = ([.faulted e], none) := by
        rw [advance, hstep]
      rw [watch_succ_none hadvance]
      rfl
    | ok signal m' =>
      cases signal with
      | next =>
        obtain ⟨more, htext, hwatched⟩ := ih m' text
        have hadvance : m.advance = (ofText "", some m') := by
          rw [advance, hstep]
          rfl
        exact ⟨more, htext, by simpa using hwatched.after hadvance⟩
      | printed line =>
        -- the line that is printed is seen before the rest of the run
        obtain ⟨more, htext, hwatched⟩ := ih m' (text ++ line)
        have hadvance : m.advance = (ofText line, some m') := by
          rw [advance, hstep]
        exact ⟨line ++ more, by simp only [htext, String.append_assoc], hwatched.after hadvance⟩
      | exit e =>
        refine ⟨"", by simp, ?_⟩
        cases e with
        | yielded =>
          -- a pause is seen, and the machine could go on
          refine .yielded (Nat.succ_pos n) rfl ?_
          have hadvance : m.advance = ([.exited .yielded],
            some { m' with status := .running }) := by
            rw [advance, hstep]
          rw [watch_succ_some hadvance]
          rfl
        | finished =>
          refine .finished (Nat.succ_le_succ (Nat.zero_le n)) ?_
          have hadvance : m.advance = ([.exited .finished], none) := by
            rw [advance, hstep]
          rw [watch_succ_none hadvance]
          rfl

/-- A machine with a program that has not ended. -/
def IsOpen (m : Machine) : Prop :=
  m.status = .ready ∨ m.status = .suspended

theorem IsOpen.resume {m : Machine} (h : m.IsOpen) (budget : Nat) :
    m.resume budget = m.proceed budget := by
  rw [Machine.resume]
  rcases h with h | h <;> rw [h]

theorem IsOpen.watched {m : Machine} (h : m.IsOpen) (budget : Nat) :
    Watched budget { m with status := .running } (m.resume budget).outcome (m.resume budget).text
      (m.resume budget).machine := by
  rw [h.resume]
  obtain ⟨more, htext, hwatched⟩ := interpret_watched budget { m with status := .running } ""
  rw [Machine.proceed, htext, String.empty_append]
  exact hwatched

/-- Calls show what some number of instructions shows. -/
theorem IsOpen.exists_watch {m : Machine} (h : m.IsOpen) (budgets : List Nat) :
    ∃ n, m.seen budgets = (({ m with status := .running } : Machine).watch n).1 := by
  induction budgets generalizing m with
  | nil => exact ⟨0, rfl⟩
  | cons budget budgets ih =>
    have hwatched := h.watched budget
    rw [seen, Run.seen]
    revert hwatched
    generalize m.resume budget = r
    obtain ⟨outcome, text, m'⟩ := r
    intro hwatched
    cases hwatched with
    | unfinished hw => exact ⟨budget, by simp [hw]⟩
    | @yielded k _ _ hk hs hw =>
      obtain ⟨n, hn⟩ := ih (.inr hs)
      refine ⟨k + 1 + n, ?_⟩
      rw [watch_add hw]
      simp [hn]
    | @finished k _ _ hk hw => exact ⟨k, by simp [hw]⟩
    | @faulted k _ _ e hk hw => exact ⟨k, by simp [hw]⟩

/-- Calls show what any number of instructions shows. -/
theorem IsOpen.exists_seen {m : Machine} (h : m.IsOpen) (n : Nat) :
    ∃ budgets, (({ m with status := .running } : Machine).watch n).1 = m.seen budgets := by
  induction n using Nat.strongRecOn generalizing m with
  | _ n ih =>
    -- one call with a budget of `n`, and more calls if it yields before
    have hwatched := h.watched n
    have hseen (budgets : List Nat) : m.seen (n :: budgets) = (m.resume n).seen ++
        if (m.resume n).outcome = .exited .yielded then (m.resume n).machine.seen budgets else [] :=
        rfl
    revert hwatched hseen
    generalize m.resume n = r
    obtain ⟨outcome, text, m'⟩ := r
    intro hwatched hseen
    cases hwatched with
    | unfinished hw => exact ⟨[n], by simp [hw, hseen, Run.seen]⟩
    | @yielded k _ _ hk hs hw =>
      have hopen : m'.IsOpen := .inr hs
      obtain ⟨budgets, hbudgets⟩ := ih (n - (k + 1)) (by omega) hopen
      refine ⟨n :: budgets, ?_⟩
      have hn : n = k + 1 + (n - (k + 1)) := by omega
      rw [hseen, Run.seen]
      nth_rewrite 1 [hn]
      rw [watch_add hw]
      simp [hbudgets]
    | @finished k _ _ hk hw =>
      obtain ⟨j, rfl⟩ := Nat.exists_eq_add_of_le hk
      exact ⟨[k + j], by simp [watch_add_none hw, hseen, Run.seen]⟩
    | @faulted k _ _ e hk hw =>
      obtain ⟨j, rfl⟩ := Nat.exists_eq_add_of_le hk
      exact ⟨[k + j], by simp [watch_add_none hw, hseen, Run.seen]⟩

end Machine

end EntityScript
