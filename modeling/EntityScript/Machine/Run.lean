/-
# Running programs

A call of `run` or `resume` executes instructions until the program yields, ends or fails.  A
program may run forever, so a call has a budget of instructions; when it runs out the machine is
left running.
-/
import EntityScript.Machine.Step

namespace EntityScript

/-- How a call ended. -/
inductive Outcome where
  | exited (e : Exit)
  | faulted (e : RuntimeError)
  /-- The budget ran out. -/
  | unfinished
deriving DecidableEq, Repr

/-- The result of a call: how it ended, what it printed, and the machine afterwards. -/
structure Run where
  outcome : Outcome
  text : String
  machine : Machine

namespace Machine

/-- The machine after a program handed control back. -/
def exited (m : Machine) : Exit → Machine
  | .yielded => { m with status := .suspended }
  | .finished => { m with status := .finished }

/-- The machine after an error. -/
def failed (m : Machine) (e : RuntimeError) : Machine :=
  { m with stack := #[], frames := [], status := .faulted e }

/-- Executes instructions until the program hands control back or fails, or the budget runs out;
`text` is what has been printed so far. -/
def interpret : Nat → Machine → (text : String) → Run
  | 0, m, text => ⟨.unfinished, text, m⟩
  | n + 1, m, text =>
    match Exec.step.run m with
    | .ok .next m => interpret n m text
    | .ok (.printed line) m => interpret n m (text ++ line)
    | .ok (.exit e) m => ⟨.exited e, text, m.exited e⟩
    | .error fault m =>
      let e : RuntimeError := ⟨fault, m.trace⟩
      ⟨.faulted e, text, m.failed e⟩

/-- Lets a machine go on. -/
def proceed (m : Machine) (budget : Nat) : Run :=
  interpret budget { m with status := .running } ""

/-- Refuses to run a machine, which stays as it is. -/
def refuse (m : Machine) : Run :=
  ⟨.faulted ⟨.notResumable m.status.name, []⟩, "", m⟩

/-- Starts a program that has just been loaded. -/
def run (m : Machine) (budget : Nat) : Run :=
  match m.status with
  | .ready => m.proceed budget
  | _ => m.refuse

/-- Continues a program after its `yield`, or starts one. -/
def resume (m : Machine) (budget : Nat) : Run :=
  match m.status with
  | .ready | .suspended => m.proceed budget
  | _ => m.refuse

end Machine

end EntityScript
