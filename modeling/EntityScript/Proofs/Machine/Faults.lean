/-
# Faults

A run that stops with an error has got somewhere without one, and then there is one instruction that
fails (`Machine.Fails`).  Instructions look at everything that can go wrong before they change a
global or print, and the heap only grows; so nothing that was there before is lost with an
instruction that fails (`fault_changes_nothing`).
-/
import EntityScript.Proofs.Machine.Safety

namespace EntityScript

namespace Machine

variable {lib : Library} {host : Host} {m : Machine}

/-! ## The instruction that fails -/

/-- A run that fails takes some number of instructions without an end, and the next one fails. -/
theorem interpret_faulted {budget : Nat} {text : String} {e : RuntimeError}
    (h : (m.interpret budget text).outcome = .faulted e) :
    ∃ n k k', n < budget ∧ m.interpret n text = ⟨.unfinished, (m.interpret budget text).text, k⟩ ∧
      Exec.step.run k = .error e.fault k' ∧ e.trace = k'.trace ∧
      (m.interpret budget text).machine = k'.failed e := by
  -- the text is generalized, since what is printed on the way belongs to the run up to the failure
  induction budget generalizing m text with
  | zero => cases h
  | succ budget ih =>
    rw [interpret] at h ⊢
    cases hstep : Exec.step.run m with
    | error fault k' =>
      rw [hstep] at h
      obtain rfl := Outcome.faulted.inj h
      exact ⟨0, m, k', Nat.succ_pos _, rfl, hstep, rfl, rfl⟩
    | ok signal m₁ =>
      rw [hstep] at h
      cases signal with
      | next =>
        obtain ⟨n, k, k', hn, hreached, hfails⟩ := ih h
        refine ⟨n + 1, k, k', Nat.succ_lt_succ hn, ?_, hfails⟩
        rw [interpret, hstep]
        exact hreached
      | printed line =>
        obtain ⟨n, k, k', hn, hreached, hfails⟩ := ih h
        refine ⟨n + 1, k, k', Nat.succ_lt_succ hn, ?_, hfails⟩
        rw [interpret, hstep]
        exact hreached
      | exit x => cases h

/-- A call of `run` or `resume` fails: the machine gets to `k`, and what the instruction there
leaves behind is `k'`. -/
structure Fails (m : Machine) (budget : Nat) (r : Run) (e : RuntimeError) (n : Nat)
    (k k' : Machine) : Prop where
  within : n < budget
  reached : ({ m with status := .running } : Machine).interpret n "" = ⟨.unfinished, r.text, k⟩
  step : Exec.step.run k = .error e.fault k'
  trace : e.trace = k'.trace
  left : r.machine = k'.failed e

/-- A call that ends with an error has come to the instruction that fails. -/
theorem proceed_faulted {budget : Nat} {e : RuntimeError}
    (h : (m.proceed budget).outcome = .faulted e) :
    ∃ n k k', m.Fails budget (m.proceed budget) e n k k' ∧ k = (m.proceed n).machine := by
  obtain ⟨n, k, k', hn, hreached, hstep, htrace, hleft⟩ := interpret_faulted h
  exact ⟨n, k, k', ⟨hn, hreached, hstep, htrace, hleft⟩, (congrArg Run.machine hreached).symm⟩

/-- A machine that fails does so in the midst of a run, unless it is not run at all. -/
theorem Reachable.fails (hm : Reachable lib host m) {budget : Nat} {r : Run}
    (hr : r = m.run budget ∨ r = m.resume budget) {e : RuntimeError} (he : r.outcome = .faulted e)
    (hran : ∀ what, e.fault ≠ .notResumable what) :
    (m.status = .ready ∨ m.status = .suspended) ∧ ∃ n k k', m.Fails budget r e n k k' ∧
    Reachable lib host k := by
  have hrefused : m.refuse.outcome ≠ .faulted e := by
    intro h
    obtain rfl := Outcome.faulted.inj h
    exact hran _ rfl
  rcases hr with rfl | rfl
  · cases hstatus : m.status with
    | ready =>
      have hrun (n : Nat) : m.run n = m.proceed n := by rw [Machine.run, hstatus]
      rw [hrun] at he ⊢
      obtain ⟨n, k, k', hfails, rfl⟩ := proceed_faulted he
      exact ⟨.inl rfl, n, _, k', hfails, hrun n ▸ hm.run n⟩
    | empty | running | suspended | finished | faulted =>
      rw [Machine.run, hstatus] at he
      exact absurd he hrefused
  · cases hstatus : m.status with
    | ready | suspended =>
      have hresume (n : Nat) : m.resume n = m.proceed n := by rw [Machine.resume, hstatus]
      rw [hresume] at he ⊢
      obtain ⟨n, k, k', hfails, rfl⟩ := proceed_faulted he
      exact ⟨by simp, n, _, k', hfails, hresume n ▸ hm.resume n⟩
    | empty | running | finished | faulted =>
      rw [Machine.resume, hstatus] at he
      exact absurd he hrefused

/-! ## What is left of it -/

/-- An instruction that fails keeps the globals and the objects. -/
theorem Sound.spares (S : m.Sound lib) {e : Fault} {k : Machine}
    (hstep : Exec.step.run m = .error e k) :
    k.globals = m.globals ∧ m.heap.Extends k.heap := by
  by_cases hframes : m.frames = []
  · rw [Exec.run_step_idle hframes] at hstep
    obtain ⟨-, rfl⟩ := EStateM.Result.error.inj hstep
    exact ⟨rfl, .refl _⟩
  · rcases (S.aligned hframes).step hframes
      S.limit with ⟨sig, m', hok, -⟩ | ⟨e', k', herror, -, hglobals, hheap, -⟩
    · rw [hstep] at hok
      cases hok
    · rw [hstep] at herror
      obtain ⟨-, rfl⟩ := EStateM.Result.error.inj herror
      exact ⟨hglobals, hheap⟩

end Machine

/-! ## A script that fails in a function -/

/-- A script with a function that adds to something that is no number. -/
def Library.failing : Library := fun _ =>
  ([], "let n = 1;\nfun bad(x) \x7b\n  n = 2;\n  return x + nil;\n\x7d\nprint n;\nprint bad(1);\n")

/-- The machine with the script, before it starts. -/
def Machine.failing : Machine :=
  match Library.failing.program 0 with
  | .ok p => (new .empty).load p
  | .error _ => new .empty

/-- The machine has been loaded and has not run. -/
theorem reachable_failing : Machine.Reachable .failing .empty .failing := by
  unfold Machine.failing
  split
  · next p hp => exact .load .new hp
  · exact .new

/-- An addition of an integer and `nil` on the fourth line, in a call from the seventh. -/
theorem failing_fails : (Machine.failing.run 99).outcome =
    .faulted ⟨.operand (.binaryMismatch .add .int .nil), [⟨some "bad", 4⟩, ⟨none, 7⟩]⟩ := by
  decide +kernel

/-! ## Faults change nothing -/

/-- On every machine that can be reached, an instruction that fails leaves all globals and all
objects as they were, prints nothing, and the machine ends with exactly the error that is returned.
It makes no difference what the instruction is, and what the fault; a failed attempt to print is no
exception.  So a run that fails leaves the globals, the objects and the text that were there before
its last instruction. -/
theorem fault_changes_nothing (lib : Library) (host : Host) (hfrom : host.From lib) (m : Machine)
    (hm : Machine.Reachable lib host m) :
    (∀ e k, Exec.step.run m = .error e k →
      k.globals = m.globals ∧ m.heap.Extends k.heap ∧
      ∀ budget text, ∃ r, m.interpret (budget + 1) text = ⟨.faulted ⟨e, k.trace⟩, text, r⟩ ∧
        r.status = .faulted ⟨e, k.trace⟩ ∧ r.globals = m.globals ∧ m.heap.Extends r.heap) ∧
    ∀ budget r, r = m.run budget ∨ r = m.resume budget → ∀ e, r.outcome = .faulted e →
      (∀ what, e.fault ≠ .notResumable what) →
      ∃ n k k', n < budget ∧ ({ m with status := .running } : Machine).interpret n "" =
      ⟨.unfinished, r.text, k⟩ ∧
        Exec.step.run k = .error e.fault k' ∧
        r.machine.status = .faulted e ∧ r.machine.globals = k.globals ∧
        k.heap.Extends r.machine.heap := by
  refine ⟨fun e k hstep => ?_, fun budget r hr e he hran => ?_⟩
  · obtain ⟨hglobals, hheap⟩ := (hm.sound hfrom).1.spares hstep
    refine ⟨hglobals, hheap, fun budget text => ⟨k.failed ⟨e, k.trace⟩, ?_, rfl, hglobals, hheap⟩⟩
    rw [Machine.interpret, hstep]
  · obtain ⟨-, n, k, k', hfails, hk⟩ := hm.fails hr he hran
    obtain ⟨hglobals, hheap⟩ := (hk.sound hfrom).1.spares hfails.step
    refine ⟨n, k, k', hfails.within, hfails.reached, hfails.step, ?_⟩
    rw [hfails.left]
    exact ⟨rfl, hglobals, hheap⟩

/-- The script has printed and its function has stored into a global before the sum fails; all of it
stays. -/
theorem fault_changes_nothing_failing :
    ∃ n k, ({ Machine.failing with status := .running } : Machine).interpret n "" =
    ⟨.unfinished, "1\n", k⟩ ∧
      (Machine.failing.run 99).machine.status =
        .faulted ⟨.operand (.binaryMismatch .add .int .nil), [⟨some "bad", 4⟩, ⟨none, 7⟩]⟩ ∧
      (Machine.failing.run 99).machine.globals = k.globals ∧
      k.heap.Extends (Machine.failing.run 99).machine.heap := by
  obtain ⟨-, hruns⟩ := fault_changes_nothing .failing .empty (Host.from_empty _) _ reachable_failing
  obtain ⟨n, k, k', -, hreached, -, hleft⟩ := hruns 99 _ (.inl rfl) _ failing_fails nofun
  have htext : (Machine.failing.run 99).text = "1\n" := by decide +kernel
  rw [htext] at hreached
  exact ⟨n, k, hreached, hleft⟩

end EntityScript
