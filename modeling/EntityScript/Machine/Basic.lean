/-
# Machines

A machine runs one program at a time.  Its value stack is shared by all active calls: each call owns
the part from its base upward, where the function itself lies, and above it the arguments, the other
locals and the intermediate results.  A machine that is suspended keeps its stack and its calls as
they are.
-/
import EntityScript.Heap
import EntityScript.Machine.Fault

namespace EntityScript

/-- The most values on the stack. -/
def stackLimit : Nat := 256

/-- The most active calls. -/
def frameLimit : Nat := 16

/-- An active call: the function, the next instruction, and where its part of the stack starts. -/
structure Frame where
  function : Function
  cursor : Nat
  base : Nat

/-- What a machine is doing. -/
inductive Status where
  /-- Nothing is loaded. -/
  | empty
  /-- A program is loaded and has not started. -/
  | ready
  /-- The machine is executing instructions. -/
  | running
  /-- The program paused at a `yield`. -/
  | suspended
  /-- The program has ended. -/
  | finished
  /-- The program was stopped by an error. -/
  | faulted (e : RuntimeError)
deriving DecidableEq, Repr

/-- The word for a status. -/
def Status.name : Status → String
  | .empty => "empty"
  | .ready => "ready"
  | .running => "running"
  | .suspended => "suspended"
  | .finished => "finished"
  | .faulted _ => "faulted"

/-- Where printed text goes. -/
inductive Sink where
  | accepting
  /-- Every attempt to print fails. -/
  | broken (reason : String)
deriving DecidableEq, Repr

/-- A machine and all it holds. -/
structure Machine where
  host : Host
  stack : Array Value
  /-- The active calls, the innermost first. -/
  frames : List Frame
  globals : Std.TreeMap String Value
  heap : Heap
  status : Status
  sink : Sink

namespace Machine

/-- A machine with nothing loaded. -/
def new (host : Host) : Machine where
  host := host
  stack := #[]
  frames := []
  globals := {}
  heap := .empty
  status := .empty
  sink := .accepting

/-- Forgets everything that a program left behind.  The output stays as it is. -/
def reset (m : Machine) : Machine :=
  { new m.host with sink := m.sink }

/-- Makes an object and binds a global to it. -/
def bind (m : Machine) (name : String) (object : Object) : Machine :=
  let (ref, heap) := m.heap.alloc object
  { m with heap := heap, globals := m.globals.insert name (.object ref) }

/-- Puts a string into the heap. -/
def intern (m : Machine) (text : String) : Machine :=
  { m with heap := (m.heap.intern text).2 }

/-- Makes the functions of the host global, the compiled ones last. -/
def bindHost (m : Machine) : Machine :=
  let m := m.host.natives.foldl (fun m name n => m.bind name (.native n)) m
  m.host.scripts.foldl (fun m name f => m.bind name (.function f)) m

/-- Loads a program, in place of whatever was there. -/
def load (m : Machine) (p : Program) : Machine :=
  let m := (p.strings.foldl intern m.reset).bindHost
  let (ref, heap) := m.heap.function p.main
  { m with
    heap := heap
    stack := #[.object ref]
    frames := [⟨p.main, 0, 0⟩]
    status := .ready }

/-- The place of the next instruction of the innermost call. -/
def cursor? (m : Machine) : Option Nat :=
  m.frames.head?.map Frame.cursor

/-- The value of a global. -/
def global? (m : Machine) (name : String) : Option Value :=
  m.globals[name]?

/-- A value as `print` shows it. -/
def display (m : Machine) (v : Value) : String :=
  m.heap.display v

/-- The active calls, as a runtime error shows them.  The line of a call is that of the instruction
it executed last. -/
def trace (m : Machine) : List TraceFrame :=
  m.frames.map fun frame =>
    ⟨frame.function.name, (frame.function.chunk.line? (frame.cursor - 1)).getD 0⟩

end Machine

end EntityScript
