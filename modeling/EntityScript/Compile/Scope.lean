/-
# Scopes

The local variables of the function that is being read.  Locals live in consecutive slots of the
function's stack window, in the order of their declaration; slot zero holds the function itself.  A
local belongs to the block that declared it and is dropped at the end of that block.
-/

namespace EntityScript

/-- The most locals that one function can have, slot zero included. -/
def maxLocals : Nat := 256

/-- A local variable; it has no depth while its first value is being computed. -/
structure Local where
  name : String
  depth : Option Nat
deriving DecidableEq, Repr

/-- The locals in sight, the latest first, and how many blocks are open. -/
structure Scope where
  locals : List Local
  depth : Nat
deriving DecidableEq, Repr

namespace Scope

/-- The scope at the start of a function: slot zero has no name. -/
def start : Scope :=
  ⟨[⟨"", some 0⟩], 0⟩

/-- Opens a block. -/
def enter (s : Scope) : Scope :=
  { s with depth := s.depth + 1 }

/-- Whether a local is dropped when a block at the given depth becomes the innermost. -/
def isLeaving (depth : Nat) (l : Local) : Bool :=
  match l.depth with
  | none => true
  | some d => depth < d

/-- Closes a block; also gives the number of locals dropped with it. -/
def leave (s : Scope) : Nat × Scope :=
  let depth := s.depth - 1
  ((s.locals.takeWhile (isLeaving depth)).length, ⟨s.locals.dropWhile (isLeaving depth), depth⟩)

/-- Whether the innermost block already declares a name. -/
def declares (s : Scope) (name : String) : Bool :=
  (s.locals.takeWhile (isLeaving (s.depth - 1))).any (·.name == name)

/-- Adds a local that has no value yet; `none` if the function has no room for it. -/
def add? (s : Scope) (name : String) : Option Scope :=
  if s.locals.length < maxLocals then some { s with locals := ⟨name, none⟩ :: s.locals } else none

/-- Marks the latest local as having its value. -/
def settle (s : Scope) : Scope :=
  match s.locals with
  | l :: rest => { s with locals := { l with depth := some s.depth } :: rest }
  | [] => s

/-- The slot of the latest local. -/
def lastSlot (s : Scope) : Nat :=
  s.locals.length - 1

/-- The slot of the nearest local with a name, and whether it has its value. -/
def find? (s : Scope) (name : String) : Option (Nat × Bool) :=
  match s.locals.dropWhile (·.name != name) with
  | [] => none
  | l :: rest => some (rest.length, l.depth.isSome)

end Scope

end EntityScript
