/-
# Host functions

The functions that a host offers to scripts: natives, which compute in the host, and functions taken
from compiled scripts.  Both are known by name; a machine makes them globals whenever it loads a
program, and the compiler lets scripts use their names.
-/
import EntityScript.Code.Function
import Std.Data.TreeMap

namespace EntityScript

/-- A function of the host.  It gets its arguments in order and gives one value, or says why it
cannot. -/
structure Native where
  name : String
  /-- How many arguments it takes; `none` for any number. -/
  arity : Option Nat
  /-- Tells natives of one name apart. -/
  edition : Nat
  call : List Value → Except String Value

/-- A native as it is printed. -/
def Native.text (n : Native) : String :=
  "<native fn " ++ n.name ++ ">"

/-- The functions that scripts may use, by name. -/
structure Host where
  natives : Std.TreeMap String Native
  scripts : Std.TreeMap String Function

namespace Host

/-- No functions at all. -/
def empty : Host := ⟨{}, {}⟩

/-- Adds a native under its name, in place of an earlier one. -/
def addNative (h : Host) (n : Native) : Host :=
  { h with natives := h.natives.insert n.name n }

/-- Adds a compiled function under a name, in place of an earlier one. -/
def addScript (h : Host) (name : String) (f : Function) : Host :=
  { h with scripts := h.scripts.insert name f }

/-- Adds a compiled function under its own name. -/
def addNamed (h : Host) (f : Function) : Host :=
  match f.name with
  | some name => h.addScript name f
  | none => h

/-- Adds every top-level function of a program under its name. -/
def addProgram (h : Host) (p : Program) : Host :=
  p.functions.foldl addNamed h

/-- Every name that a script may use without declaring it: those of natives, then those of compiled
functions, each in order. -/
def names (h : Host) : List String :=
  h.natives.keys ++ h.scripts.keys

/-- Whether a script may use a name without declaring it. -/
def contains (h : Host) (name : String) : Bool :=
  h.natives.contains name || h.scripts.contains name

end Host

/-- The number of functions that a program offers to a host. -/
def Program.exports (p : Program) : Nat :=
  (p.functions.filter (·.name.isSome)).length

end EntityScript
