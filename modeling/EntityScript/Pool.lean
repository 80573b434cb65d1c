/-
# Pools of machines

Machines are reused: a pool hands one out for a script and takes it back when the script is done.  A
handle names one check-out of one machine.  Taking a machine back advances the generation of its
slot, so that the handle no longer fits.  A pool grows by whole blocks and never shrinks.
-/
import EntityScript.Machine.Run

namespace EntityScript

/-- Names a check-out of a machine: its block, its place in the block, and the generation. -/
structure Handle where
  block : Nat
  index : Nat
  generation : UInt32
deriving DecidableEq, Repr

/-- A handle as it is shown. -/
def Handle.text (h : Handle) : String :=
  "VmHandle \x7b block: " ++ toString h.block ++ ", index: " ++ toString h.index ++
    ", generation: " ++ toString h.generation.toNat ++ " \x7d"

/-- Why a machine was not taken back. -/
inductive PoolError where
  /-- The pool has no such slot. -/
  | unknownHandle (h : Handle)
  /-- The machine is not checked out under this handle. -/
  | notInUse (h : Handle)
deriving DecidableEq, Repr

/-- The wording of a pool error. -/
def PoolError.message : PoolError → String
  | .unknownHandle h => "VM " ++ h.text ++ " does not belong to this pool."
  | .notInUse h => "VM " ++ h.text ++ " is not checked out."

/-- A machine of a pool. -/
structure Slot where
  machine : Machine
  inUse : Bool
  generation : UInt32

/-- Machines in blocks, and the handles under which the idle ones will be handed out, the next one
first. -/
structure Pool where
  host : Host
  blockSize : Nat
  blocks : Array (Array Slot)
  free : List Handle

namespace Pool

/-- The number of machines added at a time unless something else is asked for. -/
def defaultBlockSize : Nat := 16

/-- A pool without machines. -/
def new (host : Host) (blockSize : Nat) : Pool :=
  ⟨host, blockSize, #[], []⟩

/-- The number of machines that a pool grows by: at least one. -/
def growth (p : Pool) : Nat :=
  max p.blockSize 1

/-- The number of machines. -/
def capacity (p : Pool) : Nat :=
  p.blocks.foldl (fun n block => n + block.size) 0

/-- The number of idle machines. -/
def available (p : Pool) : Nat :=
  p.free.length

/-- The slot that a handle points at, whatever its generation. -/
def slot? (p : Pool) (h : Handle) : Option Slot :=
  p.blocks[h.block]?.bind (·[h.index]?)

/-- Changes the slot that a handle points at. -/
def modifySlot (p : Pool) (h : Handle) (f : Slot → Slot) : Pool :=
  { p with blocks := p.blocks.modify h.block (·.modify h.index f) }

/-- Whether a slot is checked out under a handle. -/
def accepts (s : Slot) (h : Handle) : Bool :=
  s.inUse && s.generation == h.generation

/-- The machine that is checked out under a handle. -/
def get? (p : Pool) (h : Handle) : Option Machine :=
  ((p.slot? h).filter (accepts · h)).map Slot.machine

/-- Replaces the machine that is checked out under a handle. -/
def put (p : Pool) (h : Handle) (m : Machine) : Pool :=
  p.modifySlot h fun s => if accepts s h then { s with machine := m } else s

/-- Adds a block of machines.  All but the first, which is about to be handed out, become idle and
will be handed out in order. -/
def grow (p : Pool) : Pool :=
  { p with
    blocks := p.blocks.push (Array.replicate p.growth ⟨.new p.host, false, 0⟩)
    free := (List.range (p.growth - 1)).map (⟨p.blocks.size, · + 1, 0⟩) ++ p.free }

/-- Marks a machine as checked out; `free` are the handles that stay idle. -/
def checkOut (p : Pool) (h : Handle) (free : List Handle) : Pool :=
  { p with free := free }.modifySlot h fun s => { s with inUse := true }

/-- Checks out an idle machine, after growing if there is none. -/
def request (p : Pool) : Handle × Pool :=
  match p.free with
  | h :: rest => (h, p.checkOut h rest)
  | [] =>
    let h : Handle := ⟨p.blocks.size, 0, 0⟩
    (h, p.grow.checkOut h p.grow.free)

/-- Takes a machine back.  It is emptied before anyone else can get it. -/
def reclaim (p : Pool) (h : Handle) : Except PoolError Pool :=
  match p.slot? h with
  | none => .error (.unknownHandle h)
  | some s =>
    if accepts s h then
      let generation := s.generation + 1
      .ok { p.modifySlot h fun s => ⟨s.machine.reset, false, generation⟩ with
        free := { h with generation := generation } :: p.free }
    else .error (.notInUse h)

end Pool

end EntityScript
