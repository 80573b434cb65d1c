/-
# The scripts of an entity

An entity runs up to four scripts at once, each on a machine of its own from a pool.  A tick resumes
every script once, in the order of the slots; a script that ends or fails gives its machine back and
frees its slot.
-/
import EntityScript.Pool

namespace EntityScript

/-- The number of scripts that an entity can run at once. -/
def slotCount : Nat := 4

/-- The slots of an entity, each with the machine of its script. -/
structure Component where
  slots : List (Option Handle)
  length_slots : slots.length = slotCount

/-- Why a script could not be attached. -/
inductive AttachError where
  | noFreeSlot
deriving DecidableEq, Repr

/-- The wording of an attach error. -/
def AttachError.message : AttachError → String
  | .noFreeSlot => "All " ++ toString slotCount ++ " script slots are in use."

/-- What happened in a slot during a tick. -/
inductive SlotReport where
  /-- No script was attached. -/
  | vacant
  /-- The machine had been taken away. -/
  | stale (h : Handle)
  /-- The script was resumed. -/
  | resumed (outcome : Outcome) (text : String)
deriving DecidableEq, Repr

/-- What happened during a tick. -/
structure TickReport where
  slots : List SlotReport
deriving DecidableEq, Repr

namespace TickReport

/-- How many scripts yielded and keep their slot. -/
def yielded (r : TickReport) : Nat :=
  r.slots.countP fun
    | .resumed (.exited .yielded) _ => true
    | _ => false

/-- How many scripts ended. -/
def finished (r : TickReport) : Nat :=
  r.slots.countP fun
    | .resumed (.exited .finished) _ => true
    | _ => false

/-- The errors that stopped scripts, in the order of the slots. -/
def faults (r : TickReport) : List RuntimeError :=
  r.slots.filterMap fun
    | .resumed (.faulted e) _ => some e
    | _ => none

/-- Everything that was printed. -/
def text (r : TickReport) : String :=
  r.slots.foldl (fun text report =>
    match report with
    | .resumed _ printed => text ++ printed
    | _ => text) ""

end TickReport

namespace Component

/-- An entity without scripts. -/
def empty : Component :=
  ⟨List.replicate slotCount none, by simp⟩

/-- The number of scripts. -/
def size (c : Component) : Nat :=
  c.slots.countP Option.isSome

/-- Whether there are no scripts. -/
def isEmpty (c : Component) : Bool :=
  c.slots.all Option.isNone

/-- The machine of the script in a slot. -/
def handle? (c : Component) (i : Nat) : Option Handle :=
  c.slots[i]?.join

/-- Starts a script in the first free slot, on a machine from the pool.  It begins to run at the
next tick. -/
def attach (c : Component) (pool : Pool) (p : Program) :
    Except AttachError (Nat × Component × Pool) :=
  match c.slots.findIdx? Option.isNone with
  | none => .error .noFreeSlot
  | some i =>
    let (h, pool) := pool.request
    let pool := match pool.get? h with
      | some m => pool.put h (m.load p)
      | none => pool
    .ok (i, ⟨c.slots.set i (some h), by simp [c.length_slots]⟩, pool)

/-- Gives a machine back; a pool that refuses it stays as it is. -/
def giveBack (pool : Pool) (h : Handle) : Pool :=
  match pool.reclaim h with
  | .ok pool => pool
  | .error _ => pool

/-- Resumes the script in a slot, if there is one. -/
def tickSlot (budget : Nat) (slot : Option Handle) (pool : Pool) :
    SlotReport × Option Handle × Pool :=
  match slot with
  | none => (.vacant, none, pool)
  | some h =>
    match pool.get? h with
    | none => (.stale h, none, pool)
    | some m =>
      let r := m.resume budget
      let pool := pool.put h r.machine
      match r.outcome with
      | .exited .yielded | .unfinished => (.resumed r.outcome r.text, some h, pool)
      | .exited .finished | .faulted _ => (.resumed r.outcome r.text, none, giveBack pool h)

/-- Resumes the scripts of several slots in order. -/
def tickSlots (budget : Nat) :
    List (Option Handle) → Pool → List SlotReport × List (Option Handle) × Pool
  | [], pool => ([], [], pool)
  | slot :: rest, pool =>
    let (report, slot, pool) := tickSlot budget slot pool
    let (reports, rest, pool) := tickSlots budget rest pool
    (report :: reports, slot :: rest, pool)

/-- A tick keeps the number of slots. -/
theorem length_tickSlots (budget : Nat) (slots : List (Option Handle)) (pool : Pool) :
    (tickSlots budget slots pool).2.1.length = slots.length := by
  induction slots generalizing pool with
  | nil => rfl
  | cons slot rest ih => simp [tickSlots, ih]

/-- Resumes every script once. -/
def tick (c : Component) (budget : Nat) (pool : Pool) : TickReport × Component × Pool :=
  let result := tickSlots budget c.slots pool
  (⟨result.1⟩, ⟨result.2.1, by rw [length_tickSlots, c.length_slots]⟩, result.2.2)

/-- Stops every script and gives all machines back. -/
def detachAll (c : Component) (pool : Pool) : Component × Pool :=
  (empty, (c.slots.filterMap id).foldl giveBack pool)

end Component

end EntityScript
