/-
# Machines that follow a computation

A machine follows a computation (`Machine.Follows`) if it shows what the computation shows and gets
to where the result says: further on in the code, to the end, or to a fault.  If the computation
runs out of rounds, the machine has executed at least as many instructions.  In place of all this
the stack may become too full, after a part of what the computation shows.

Following goes along with the structure of computations: what is done one after the other can be
followed one after the other (`Follows.bind`), and single instructions come from `Exec.Meets`.
-/
import EntityScript.Proofs.Code.Depth
import EntityScript.Proofs.Machine.Mirror
import EntityScript.Proofs.Machine.Watch

namespace EntityScript

open Exec

/-! ## Computations -/

namespace Act

variable {α β : Type}

theorem bind_eq_ok {x : Act α} {f : α → Act β} {w w' : World} {a : α}
    (h : x w = ([], .ok (a, w'))) :
    (x >>= f) w = f a w' := by
  show Act.bind x f w = _
  rw [Act.bind, h]
  rfl

/-- Nothing comes after an act that has halted. -/
theorem bind_eq_error {x : Act α} {f : α → Act β} {w : World} {h : Halt}
    (hx : x w = ([], .error h)) :
    (x >>= f) w = ([], .error h) := by
  show Act.bind x f w = _
  rw [Act.bind, hx]

end Act

namespace Machine

/-! ## Following -/

/-- The stack becomes too full, after a part of what is to be seen. -/
def Overflows (m : Machine) (seen : List Observation) : Prop :=
  ∃ k shown, m.watch k = (shown ++ [.faulted .valueStackOverflow], none) ∧ shown <+: seen

/-- A machine does what a computation does, and `post` holds of the result and of the machine
then. -/
inductive Follows {α : Type} (fuel : Nat) (m : Machine) (post : α → World → Machine → Prop) :
    List Observation × Except Halt (α × World) → Prop where
  | full {seen : List Observation} {r : Except Halt (α × World)} : m.Overflows seen →
    Follows fuel m post (seen, r)
  | done {seen : List Observation} {a : α} {w : World} {k : Nat} {m' : Machine} :
    m.watch k = (seen, some m') → m'.stack.size ≤ stackLimit → post a w m' →
    Follows fuel m post (seen, .ok (a, w))
  | fault {seen : List Observation} {e : Fault} {k : Nat} :
    m.watch k = (seen ++ [.faulted e], none) → Follows fuel m post (seen, .error (.fault e))
  | stopped {seen : List Observation} {k : Nat} :
    m.watch k = (seen ++ [.exited .finished], none) → Follows fuel m post (seen, .error .stopped)
  | timeout {seen : List Observation} {k : Nat} {m' : Machine} : fuel ≤ k →
    m.watch k = (seen, some m') → Follows fuel m post (seen, .error .timeout)

section

variable {α β : Type} {fuel : Nat} {m m' : Machine} {post : α → World → Machine → Prop}
  {post' : β → World → Machine → Prop}

/-- Following a computation that shows something, from where this has been seen. -/
theorem Follows.after {k n : Nat} {shown : List Observation}
    {x : List Observation × Except Halt (α × World)}
    (h : m.watch k = (shown, some m')) (hx : Follows n m' post x) (hfuel : fuel ≤ k + n) :
    Follows fuel m post (shown ++ x.1, x.2) := by
  have hwatch (j : Nat) := watch_add h j
  cases hx with
  | full ho =>
    obtain ⟨j, part, hj, hpart⟩ := ho
    refine .full ⟨k + j, shown ++ part, ?_, ?_⟩
    · rw [hwatch, hj, List.append_assoc]
    · obtain ⟨rest, rfl⟩ := hpart
      exact ⟨rest, by rw [List.append_assoc]⟩
  | @done _ _ _ j _ hj hlimit hpost => exact .done (by rw [hwatch, hj]) hlimit hpost
  | fault hj => exact .fault (by rw [hwatch, hj, List.append_assoc])
  | stopped hj => exact .stopped (by rw [hwatch, hj, List.append_assoc])
  | @timeout _ j _ hle hj =>
    exact .timeout (Nat.le_trans hfuel (Nat.add_le_add_left hle k)) (by rw [hwatch, hj])

/-- One computation after the other. -/
theorem Follows.bind {x : Act α} {f : α → Act β} {w : World} (hx : Follows fuel m post (x w))
    (hf : ∀ a w' m', m'.stack.size ≤ stackLimit → post a w' m' → Follows fuel m' post' (f a w')) :
    Follows fuel m post' ((x >>= f) w) := by
  show Follows fuel m post' (Act.bind x f w)
  rw [Act.bind]
  revert hx
  generalize x w = r
  intro hx
  cases hx with
  | @full seen r ho =>
    obtain ⟨k, shown, hk, hshown⟩ := ho
    cases r with
    | ok p => exact .full ⟨k, shown, hk, hshown.trans (List.prefix_append _ _)⟩
    | error h => exact .full ⟨k, shown, hk, hshown⟩
  | done hk hlimit hpost => exact (hf _ _ _ hlimit hpost).after hk (Nat.le_add_left _ _)
  | fault hk => exact .fault hk
  | stopped hk => exact .stopped hk
  | timeout hle hk => exact .timeout hle hk

/-- What a machine follows with some fuel it follows with less. -/
theorem Follows.mono {n : Nat} {x : List Observation × Except Halt (α × World)}
    (h : Follows n m post x) (hle : fuel ≤ n) : Follows fuel m post x := by
  have hself : m.watch 0 = ([], some m) := rfl
  exact h.after hself (by omega)

/-- What holds in the end may be told less exactly. -/
theorem Follows.imp {post'' : α → World → Machine → Prop}
    {x : List Observation × Except Halt (α × World)}
    (h : Follows fuel m post x) (himp : ∀ a w m', post a w m' → post'' a w m') :
    Follows fuel m post'' x := by
  cases h with
  | full ho => exact .full ho
  | done hk hlimit hpost => exact .done hk hlimit (himp _ _ _ hpost)
  | fault hk => exact .fault hk
  | stopped hk => exact .stopped hk
  | timeout hle hk => exact .timeout hle hk

/-- The machine goes on from a result without showing anything. -/
theorem Follows.onward {post'' : α → World → Machine → Prop}
    {x : List Observation × Except Halt (α × World)}
    (h : Follows fuel m post x) (hnext : ∀ a w m', m'.stack.size ≤ stackLimit → post a w m' →
      Follows fuel m' post'' ([], .ok (a, w))) : Follows fuel m post'' x := by
  cases h with
  | full ho => exact .full ho
  | @done seen _ _ _ _ hk hlimit hpost =>
    have hafter := (hnext _ _ _ hlimit hpost).after hk (Nat.le_add_left _ _)
    rw [List.append_nil] at hafter
    exact hafter
  | fault hk => exact .fault hk
  | stopped hk => exact .stopped hk
  | timeout hle hk => exact .timeout hle hk

/-- A result that is there already. -/
theorem Follows.pure {a : α} {w : World} (hlimit : m.stack.size ≤ stackLimit) (hpost : post a w m) :
    Follows fuel m post ([], .ok (a, w)) :=
  .done (k := 0) rfl hlimit hpost

end

/-! ## Single instructions -/

section

variable {α : Type} {fuel : Nat} {m : Machine} {post : α → World → Machine → Prop} {f : Function}
  {i base : Nat} {rest : List Frame} {s : List Value} {instruction : Instruction}

/-- An instruction at the cursor, as it is watched. -/
theorem advance_of_meets {signal : Signal} {m' : Machine}
    (hi : f.chunk.instruction? i = some instruction)
    (hmeets : Meets (Exec.execute instruction) (m.on (⟨f, i + 1, base⟩ :: rest) s)
      (.ok (signal, m')))
    (hlimit : s.length ≤ stackLimit) :
    (∀ seen, (m.on (⟨f, i, base⟩ :: rest) s).Overflows seen) ∨
      Exec.step.run (m.on (⟨f, i, base⟩ :: rest) s) = .ok signal m' ∧
      m'.stack.size ≤ stackLimit := by
  rcases meets_step hi hmeets with ⟨sig, k, hr, hstep, hwithin⟩ | ⟨e, k, he, hstep, -⟩
  · obtain ⟨rfl, rfl⟩ := Prod.mk.inj (Except.ok.inj hr)
    refine .inr ⟨hstep, ?_⟩
    simp only [Within, on_stack, List.size_toArray] at hwithin
    omega
  · rcases he with rfl | he
    · left
      intro seen
      refine ⟨1, [], ?_, ⟨_, rfl⟩⟩
      rw [watch, advance, hstep]
      rfl
    · cases he

/-- An instruction that shows something and goes on. -/
theorem Follows.advance (shown : List Observation) {signal : Signal} {m' m₁ : Machine}
    {x : List Observation × Except Halt (α × World)}
    (hi : f.chunk.instruction? i = some instruction)
    (hmeets : Meets (Exec.execute instruction) (m.on (⟨f, i + 1, base⟩ :: rest) s)
      (.ok (signal, m')))
    (hlimit : s.length ≤ stackLimit)
    (hadvance : ∀ k : Machine, Exec.step.run k = .ok signal m' → k.advance = (shown, some m₁))
    (hx : m'.stack.size ≤ stackLimit → Follows fuel m₁ post x) :
    Follows (fuel + 1) (m.on (⟨f, i, base⟩ :: rest) s) post (shown ++ x.1, x.2) := by
  rcases advance_of_meets hi hmeets hlimit with hfull | ⟨hstep, hlimit'⟩
  · exact .full (hfull _)
  · refine (hx hlimit').after (k := 1) ?_ (Nat.le_of_eq (Nat.add_comm fuel 1))
    rw [watch_succ_some (hadvance _ hstep)]
    simp [watch]

/-- An instruction that shows nothing. -/
theorem Follows.next {m' : Machine} {x : List Observation × Except Halt (α × World)}
    (hi : f.chunk.instruction? i = some instruction)
    (hmeets : Meets (Exec.execute instruction) (m.on (⟨f, i + 1, base⟩ :: rest) s)
      (.ok (.next, m')))
    (hlimit : s.length ≤ stackLimit) (hx : m'.stack.size ≤ stackLimit → Follows fuel m' post x) :
    Follows (fuel + 1) (m.on (⟨f, i, base⟩ :: rest) s) post x :=
  Follows.advance [] hi hmeets hlimit (fun k hk => by rw [Machine.advance, hk]) hx

/-- An instruction that shows something and gives a result. -/
theorem Follows.shown (shown : List Observation) {signal : Signal} {m' m₁ : Machine}
    {a : α} {w : World} (hi : f.chunk.instruction? i = some instruction)
    (hmeets : Meets (Exec.execute instruction) (m.on (⟨f, i + 1, base⟩ :: rest) s)
      (.ok (signal, m')))
    (hlimit : s.length ≤ stackLimit)
    (hadvance : ∀ k : Machine, Exec.step.run k = .ok signal m' → k.advance = (shown, some m₁))
    (hstack : m₁.stack = m'.stack) (hpost : post a w m₁) :
    Follows fuel (m.on (⟨f, i, base⟩ :: rest) s) post (shown, .ok (a, w)) := by
  have hnext : Follows (fuel + 1) (m.on (⟨f, i, base⟩ :: rest) s) post
    (shown ++ [], .ok (a, w)) := by
    refine Follows.advance (x := ([], .ok (a, w))) shown hi hmeets hlimit hadvance ?_
    intro hlimit'
    rw [← hstack] at hlimit'
    exact .pure hlimit' hpost
  rw [List.append_nil] at hnext
  exact hnext.mono (Nat.le_succ fuel)

/-- An instruction that shows nothing and gives a result. -/
theorem Follows.result {m' : Machine} {a : α} {w : World}
    (hi : f.chunk.instruction? i = some instruction)
    (hmeets : Meets (Exec.execute instruction) (m.on (⟨f, i + 1, base⟩ :: rest) s)
      (.ok (.next, m')))
    (hlimit : s.length ≤ stackLimit) (hpost : post a w m') :
    Follows fuel (m.on (⟨f, i, base⟩ :: rest) s) post ([], .ok (a, w)) :=
  Follows.shown [] hi hmeets hlimit (fun k hk => by rw [Machine.advance, hk]) rfl hpost

/-- An instruction that fails. -/
theorem Follows.fails {e : Fault} (hi : f.chunk.instruction? i = some instruction)
    (hmeets : Meets (Exec.execute instruction) (m.on (⟨f, i + 1, base⟩ :: rest) s) (.error e)) :
    Follows fuel (m.on (⟨f, i, base⟩ :: rest) s) post ([], .error (.fault e)) := by
  rcases meets_step hi hmeets with ⟨sig, k, hr, -⟩ | ⟨e', k, he, hstep, -⟩
  · cases hr
  · have hwatch : (m.on (⟨f, i, base⟩ :: rest) s).watch 1 = ([.faulted e'], none) := by
      rw [watch, Machine.advance, hstep]
    rcases he with rfl | he
    · exact .full ⟨1, [], hwatch, ⟨_, rfl⟩⟩
    · cases he
      exact .fault (k := 1) hwatch

end

end Machine

end EntityScript
