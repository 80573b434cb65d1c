/-
# Compiled scripts do what they mean

What a caller sees of a compiled program that is loaded and resumed again and again is what the
meaning of the script says: the same text, the same pauses, the same end or the same fault
(`load_shows_meaning`).  The one exception is a machine whose stack becomes too full, which has
shown a part of the meaning then.
-/
import EntityScript.Proofs.Machine.Execution
import EntityScript.Proofs.Machine.Safety

namespace EntityScript

open Exec Machine

/-! ## Whole runs -/

namespace Act

variable {α β : Type}

/-- What is seen of one computation after the other. -/
theorem seen_bind_ok {x : Act α} {f : α → Act β} {w w' : World} {shown : List Observation} {a : α}
    (h : x w = (shown, .ok (a, w'))) : (x >>= f).seen w = shown ++ (f a).seen w' := by
  have hbind : (x >>= f) w = (shown ++ (f a w').1, (f a w').2) := by
    show Act.bind x f w = _
    rw [Act.bind, h]
  rw [seen, hbind, seen]
  cases f a w' with
  | mk more r =>
    cases r with
    | ok p => exact List.append_assoc _ _ _
    | error h => cases h <;> simp

/-- What ends without a word cannot be seen. -/
theorem seen_bind {x : Act α} {f : α → Act β} (hf : ∀ a w, (f a).seen w = [.exited .finished])
    (w : World) :
    (x >>= f).seen w = x.seen w := by
  cases hx : x w with
  | mk shown r =>
    cases r with
    | ok p =>
      obtain ⟨a, w'⟩ := p
      rw [seen_bind_ok hx, hf, seen, hx]
    | error h =>
      have hbind : (x >>= f) w = (shown, .error h) := by
        show Act.bind x f w = _
        rw [Act.bind, hx]
      rw [seen, seen, hbind, hx]
      cases h <;> rfl

/-- What an act shows first is the beginning of what it lets see in the end. -/
theorem shown_le_seen (x : Act α) (w : World) : (x w).1 <+: x.seen w := by
  rw [seen]
  cases x w with
  | mk shown r =>
    cases r with
    | ok p => exact List.prefix_append _ _
    | error h =>
      cases h with
      | fault e => exact List.prefix_append _ _
      | stopped => exact List.prefix_append _ _
      | timeout | stuck => exact List.prefix_rfl

end Act

namespace Machine

/-- What is seen of a machine that follows a computation without a result. -/
theorem Follows.watch {α : Type} {fuel : Nat} {m : Machine} {x : Act α} {w : World}
    (h : Follows fuel m (fun _ _ _ => False) (x w)) :
    m.Overflows (x.seen w) ∨ ∃ k next, m.watch k = (x.seen w, next) ∧ (next = none ∨ fuel ≤ k) := by
  have hprefix := x.shown_le_seen w
  unfold Act.seen at hprefix ⊢
  revert h hprefix
  generalize x w = r
  intro h hprefix
  cases h with
  | full ho =>
    obtain ⟨k, shown, hk, hshown⟩ := ho
    exact .inl ⟨k, shown, hk, hshown.trans hprefix⟩
  | done _ _ hdone => exact hdone.elim
  | @fault _ _ k hk => exact .inr ⟨k, none, hk, .inl rfl⟩
  | @stopped _ k hk => exact .inr ⟨k, none, hk, .inl rfl⟩
  | @timeout _ k m' hle hk => exact .inr ⟨k, some m', hk, .inr hle⟩

/-- A return from the last call ends the program. -/
theorem follows_end {α : Type} {fuel : Nat} {a : Activation} {v : Value} {w w' : World}
    {m : Machine} {post : α → World → Machine → Prop} (hrest : a.rest = []) (hm : a.Returning v w m)
    (hlimit : m.stack.size ≤ stackLimit) : Follows fuel m post (Act.halt .stopped w') := by
  obtain ⟨k, j, s, rfl, hret, -⟩ := hm
  simp only [on_stack, List.size_toArray] at hlimit
  have hlength : (a.low ++ s ++ [v]).length = a.base + 1 + s.length + 1 := by
    rw [List.length_append, List.length_append, a.low_length, List.length_singleton]
  have hbase : (a.frame (j + 1)).base < (a.low ++ s).length := by
    show a.base < _
    rw [List.length_append, a.low_length]
    omega
  have hmeets : Meets (Exec.execute .ret)
    (k.on (a.frame (j + 1) :: a.rest) (a.low ++ s ++ [v])) _ :=
    meets_ret hbase (show a.base < stackLimit by omega)
  rw [hrest] at hmeets ⊢
  rcases advance_of_meets hret hmeets hlimit with hfull | ⟨hstep, -⟩
  · exact .full (hfull _)
  · exact .stopped (k := 1) (watch_finished hstep)

/-- What is seen of a script is what is seen of its statements. -/
theorem seen_invoke (fuel n : Nat) (r : Routine) (w : World) :
    (Routine.invoke fuel (n + 1) r []).seen w =
      (Clause.execAll ⟨r.id.unit, fuel, Routine.invoke fuel n⟩ r.name.isNone r.body >>= fun _ =>
        (Act.halt .stopped : Act Unit)).seen { w with locals := [] } := by
  have hstart : Routine.invoke fuel (n + 1) r [] w =
      (Clause.execAll ⟨r.id.unit, fuel, Routine.invoke fuel n⟩ r.name.isNone r.body >>=
        fun flow => do
        Act.become { ← Act.world with locals := w.locals }
        return flow.result) { w with locals := [] } := by
    rw [Routine.invoke, Act.bind_eq_ok (show Act.world w = _ from rfl),
      Act.bind_eq_ok (show Act.become _ w = _ from rfl), List.zip_nil_right, List.reverse_nil]
  rw [Act.seen, hstart, ← Act.seen, Act.seen_bind (fun _ _ => rfl), Act.seen_bind (fun _ _ => rfl)]

/-- A machine with a program that has just been loaded follows the script. -/
theorem follows_script {lib : Library} (reading : lib.Reading) {m : Machine}
    (hfrom : m.host.From lib) {unit : Nat} {p : Program} (hp : lib.program unit = .ok p)
    (fuel : Nat) {seen : List Observation}
    (hseen : seen = Script.seen reading.script m.host unit (lib unit).1 m.sink fuel) :
    ({ m.load p with status := .running } : Machine).Overflows seen ∨
      ∃ k next, ({ m.load p with status := .running } : Machine).watch k = (seen, next) ∧
        (next = none ∨ fuel ≤ k) := by
  obtain ⟨hmain, -⟩ := reading.main hp
  have hmirrors := mirrors_load reading hfrom hp rfl
  rw [hseen, Script.seen]
  dsimp only
  rw [show frameLimit = 15 + 1 from rfl, seen_invoke]
  refine Follows.watch ?_
  obtain ⟨ref, hstack⟩ : ∃ ref, (m.load p).stack = #[.object ref] := ⟨_, rfl⟩
  let a : Activation := ⟨p.main, [], [.object ref], 0, rfl⟩
  have hcalls : a.Calls ⟨unit, fuel, Routine.invoke fuel 15⟩ := a.calls_invoke fuel 15 rfl unit
  refine (follows_body (a := a) hcalls hmain rfl rfl
    ⟨{ m.load p with status := .running }, ?_, ?_⟩ ?_).bind ?_
  · exact congrArg (fun s => ({ m.load p with status := .running, stack := s } : Machine)) hstack
  · exact ⟨hmirrors.heap, hmirrors.globals, hmirrors.sink⟩
  · show (m.load p).stack.size ≤ stackLimit
    rw [hstack]
    exact (by decide : 1 ≤ stackLimit)
  · intro flow w' m' hlimit hm'
    exact follows_end rfl hm' hlimit

end Machine

/-- What a caller sees of a compiled program is what its script means, unless the stack of the
machine becomes too full after a part of it. -/
theorem load_shows_meaning (lib : Library) (reading : lib.Reading) (m : Machine)
    (hfrom : m.host.From lib) (unit : Nat) (p : Program) (hp : lib.program unit = .ok p) :
    (∀ shown, (∃ budgets, shown <+: (m.load p).seen budgets) ↔
        ∃ fuel, shown <+: Script.seen reading.script m.host unit (lib unit).1 m.sink fuel) ∨
      ∃ part fuel, part <+: Script.seen reading.script m.host unit (lib unit).1 m.sink fuel ∧
        ∀ shown, (∃ budgets, shown <+: (m.load p).seen budgets) ↔
          shown <+: part ++ [.faulted .valueStackOverflow] := by
  have hopen : (m.load p).IsOpen := .inl rfl
  by_cases hfull : ∃ fuel, ({ m.load p with status := .running } : Machine).Overflows
      (Script.seen reading.script m.host unit (lib unit).1 m.sink fuel)
  · obtain ⟨fuel, k, part, hk, hpart⟩ := hfull
    refine .inr ⟨part, fuel, hpart, fun shown => ⟨?_, ?_⟩⟩
    · rintro ⟨budgets, hshown⟩
      obtain ⟨n, hn⟩ := hopen.exists_watch budgets
      rw [hn] at hshown
      exact hshown.trans (watch_upto_none hk n)
    · intro hshown
      obtain ⟨budgets, hbudgets⟩ := hopen.exists_seen k
      rw [hk] at hbudgets
      exact ⟨budgets, hbudgets ▸ hshown⟩
  · have hfollows (fuel : Nat) := (follows_script reading hfrom hp fuel rfl).resolve_left
      (fun ho => hfull ⟨fuel, ho⟩)
    refine .inl fun shown => ⟨?_, ?_⟩
    · rintro ⟨budgets, hshown⟩
      obtain ⟨n, hn⟩ := hopen.exists_watch budgets
      rw [hn] at hshown
      -- as many rounds as there were instructions
      obtain ⟨k, next, hk, hnext⟩ := hfollows n
      refine ⟨n, hshown.trans ?_⟩
      rcases hnext with rfl | hle
      · exact watch_upto_none hk n
      · have hprefix := watch_grows { m.load p with status := .running } hle
        rw [hk] at hprefix
        exact hprefix
    · rintro ⟨fuel, hshown⟩
      obtain ⟨k, next, hk, -⟩ := hfollows fuel
      obtain ⟨budgets, hbudgets⟩ := hopen.exists_seen k
      rw [hk] at hbudgets
      exact ⟨budgets, hbudgets ▸ hshown⟩

/-- What is seen of the script that doubles numbers. -/
def doublingSeen : List Observation :=
  Observation.ofText "0\n" ++ [.exited .yielded] ++ Observation.ofText
    "2\n" ++ [.exited .yielded] ++ Observation.ofText "4\n" ++ [.exited .yielded, .exited .finished]

/-- What is seen of the first script of a library, where only the second one has been given to the
host. -/
def Library.seen (lib : Library) (budgets : List Nat) : List Observation :=
  match lib.program 0, lib.program 1 with
  | .ok p, .ok q => ((new (Host.builtins.addProgram q)).load p).seen budgets
  | _, _ => []

/-- A library with one function, registered with the host, and a script that calls it. -/
theorem load_shows_meaning_doubling :
    ∃ (reading : Library.doubling.Reading) (q : Program) (fuel : Nat),
      Library.doubling.program 1 = .ok q ∧
      doublingSeen <+:
        Script.seen reading.script (Host.builtins.addProgram q) 0 ["twice"] .accepting fuel := by
  have hseen : Library.doubling.seen [100, 100, 100, 100] = doublingSeen := by
    decide +kernel
  obtain ⟨reading⟩ := Library.doubling.nonempty_reading
  cases hp : Library.doubling.program 0 with
  | error e =>
    rw [Library.seen, hp] at hseen
    cases hseen
  | ok p =>
    cases hq : Library.doubling.program 1 with
    | error e =>
      rw [Library.seen, hp, hq] at hseen
      cases hseen
    | ok q =>
      simp only [Library.seen, hp, hq] at hseen
      have hfrom := (Host.from_builtins Library.doubling).addProgram hq
      refine ⟨reading, q, ?_⟩
      have hshown : ∃ budgets, doublingSeen <+: ((new (Host.builtins.addProgram q)).load p).seen
        budgets := by
        rw [← hseen]
        exact ⟨_, List.prefix_rfl⟩
      rcases load_shows_meaning _ reading (new (Host.builtins.addProgram q)) hfrom 0 p hp with
        hsame | ⟨part, fuel, hpart, hfull⟩
      · obtain ⟨fuel, hfuel⟩ := (hsame _).mp hshown
        exact ⟨fuel, rfl, hfuel⟩
      · -- the end is seen, so the stack has not become too full
        rcases List.prefix_concat_iff.mp ((hfull _).mp hshown) with heq | hle
        · have hend : doublingSeen.getLast? = some (.exited .finished) := by decide +kernel
          rw [heq, List.getLast?_concat] at hend
          cases hend
        · exact ⟨fuel, rfl, hle.trans hpart⟩

end EntityScript
