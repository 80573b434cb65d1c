/-
# What a program cannot change

A machine belongs to a host and prints to a sink.  No instruction changes either, whatever the
program does, and so neither does a run of any length (`Machine.surroundings_resume`).  Nor does an
instruction change what the machine is said to be doing; only a run does, at its start and at its
end.
-/
import EntityScript.Proofs.Machine.Heap
import EntityScript.Proofs.Machine.Keeping

namespace EntityScript

/-- The host of a machine and its output. -/
def Machine.surroundings (m : Machine) : Host × Sink :=
  (m.host, m.sink)

/-- Two machines belong to the same host, print to the same output and are doing the same. -/
def Machine.Beside (m m' : Machine) : Prop :=
  m'.surroundings = m.surroundings ∧ m'.status = m.status

namespace Exec

/-- The surroundings of a machine are neither globals nor objects. -/
theorem lenient_beside : Lenient Machine.Beside fun _ => True where
  refl _ := ⟨rfl, rfl⟩
  trans h k := ⟨k.1.trans h.1, k.2.trans h.2⟩
  stack _ _ _ := ⟨rfl, rfl⟩
  fault _ _ := trivial
  globals _ _ := ⟨rfl, rfl⟩
  heap _ _ := ⟨rfl, rfl⟩
  undefined _ := trivial

/-- The surroundings of a machine are not its calls. -/
theorem detached_beside : Detached Machine.Beside where
  refl _ := ⟨rfl, rfl⟩
  trans h k := ⟨k.1.trans h.1, k.2.trans h.2⟩
  calls _ _ _ := ⟨rfl, rfl⟩
  globals _ _ := ⟨rfl, rfl⟩

/-- A computation leaves the host and the output as they are. -/
abbrev Contained {α : Type} (x : Exec α) : Prop :=
  Keeps Machine.Beside (fun _ => True) x

/-- No instruction changes the host or the output. -/
theorem contained_execute (i : Instruction) : Contained (execute i) := by
  cases i with
  | literal | add => exact keeps_execute_data lenient_beside rfl
  | _ => exact keeps_execute_calls detached_beside rfl

/-- Nor does reading the next instruction change them. -/
theorem contained_step : Contained step :=
  .bind lenient_beside.toTolerant (keeps_fetch detached_beside) contained_execute

end Exec

namespace Machine

/-- A run that ends leaves the host and the output as they are. -/
theorem surroundings_exited (m : Machine) (e : Exit) :
    (m.exited e).surroundings = m.surroundings := by
  cases e <;> rfl

/-- No run changes the host or the output, whatever its budget. -/
theorem surroundings_interpret (budget : Nat) (m : Machine) (text : String) :
    (interpret budget m text).machine.surroundings = m.surroundings := by
  induction budget generalizing m text with
  | zero => rfl
  | succ n ih =>
    rw [interpret]
    cases hrun : Exec.step.run m with
    | ok signal m' =>
      have hm := (Exec.contained_step.ok hrun).1
      cases signal with
      | next | printed => exact (ih _ _).trans hm
      | exit e => exact (surroundings_exited m' e).trans hm
    | error e m' => exact (Exec.contained_step.error hrun).1.1

theorem surroundings_bind (m : Machine) (name : String) (object : Object) :
    (m.bind name object).surroundings = m.surroundings := rfl

/-- The functions of the host are bound in a machine that still belongs to it. -/
theorem surroundings_bindHost (m : Machine) : m.bindHost.surroundings = m.surroundings := by
  have hnatives := foldl_table_rel (fun (k : Machine) (_ : Unit) => k.surroundings = m.surroundings)
    m.host.natives (f := fun k name n => k.bind name (.native n)) (g := fun _ _ _ => ()) (x := m)
    (y := ()) rfl fun name n _ k _ hk => (k.surroundings_bind name _).trans hk
  exact foldl_table_rel (fun (k : Machine) (_ : Unit) => k.surroundings = m.surroundings) _
    (f := fun k name f => k.bind name (.function f)) (g := fun _ _ _ => ()) (y := ()) hnatives
    fun name f _ k _ hk => (k.surroundings_bind name _).trans hk

/-- Loading a program keeps the host and the output. -/
theorem surroundings_load (m : Machine) (p : Program) :
    (m.load p).surroundings = m.surroundings := by
  have htexts : (p.strings.foldl intern m.reset).surroundings = m.surroundings :=
    List.foldlRecOn (motive := fun k : Machine => k.surroundings = m.surroundings) p.strings intern
      (b := m.reset) rfl fun k hk _ _ => hk
  exact (surroundings_bindHost _).trans htexts

/-- However a machine is resumed, its host and its output stay the same. -/
theorem surroundings_resume (m : Machine) (budget : Nat) :
    (m.resume budget).machine.surroundings = m.surroundings := by
  rw [resume]
  split
  · exact surroundings_interpret budget _ ""
  · exact surroundings_interpret budget _ ""
  · rfl

end Machine

end EntityScript
