/-
# Journals

What the system reports about its own work, for the people who run it.  Nothing depends on a
journal: its records are derived from what an operation was given and what it gave.
-/
import EntityScript.Catalog
import EntityScript.Code.Listing
import EntityScript.Component

namespace EntityScript

/-- How important a record is. -/
inductive Level where
  | error
  | warn
  | debug
  | trace
deriving DecidableEq, Repr

namespace Level

/-- The position of a level, the most important first. -/
def rank : Level → Nat
  | .error => 0
  | .warn => 1
  | .debug => 2
  | .trace => 3

/-- The word for a level. -/
def name : Level → String
  | .error => "ERROR"
  | .warn => "WARN"
  | .debug => "DEBUG"
  | .trace => "TRACE"

end Level

/-- A record of a journal. -/
structure Record where
  level : Level
  message : String
deriving DecidableEq, Repr

/-- A record as it is shown. -/
def Record.text (r : Record) : String :=
  r.level.name ++ " " ++ r.message

namespace Journal

/-- The records of a compilation. -/
def ofCompile : Except CompileError Program → List Record
  | .error e => e.diagnostics.map fun d => ⟨.warn, d.text⟩
  | .ok p =>
    [⟨.debug, "compiled script: " ++ toString p.main.chunk.code.size ++ " instructions, " ++
      toString p.main.chunk.literals.length ++ " literals, " ++ toString p.strings.length ++
      " strings"⟩]

/-- The records of adding a script to a catalog under a name. -/
def ofInsert (result : Except LoadError (Program × Catalog)) (name : String) : List Record :=
  match result with
  | .ok (p, _) => ofCompile (.ok p) ++ [⟨.debug, "loaded script '" ++ name ++ "'"⟩]
  | .error (.compile _ e) => ofCompile (.error e)
  | .error _ => []

/-- The records of loading a program, from the machine afterwards. -/
def ofLoad (m : Machine) : List Record :=
  [⟨.debug, "loaded script: " ++ toString m.globals.size ++ " globals, " ++
    toString m.heap.size ++ " objects"⟩]

/-- The records of one instruction: the stack before it, and the instruction. -/
def ofStep (m : Machine) : List Record :=
  match m.frames with
  | frame :: _ =>
    [⟨.trace, "[ " ++ " ".intercalate (m.stack.toList.map m.display) ++ " ]"⟩,
     ⟨.trace, frame.function.chunk.listInstruction frame.cursor⟩]
  | [] => []

/-- The records of all instructions of a call; those already made are given latest first. -/
def ofSteps : Nat → Machine → (made : List Record) → List Record
  | 0, _, made => made.reverse
  | n + 1, m, made =>
    let made := (ofStep m).reverse ++ made
    match Exec.step.run m with
    | .ok .next m | .ok (.printed _) m => ofSteps n m made
    | .ok (.exit _) _ | .error _ _ => made.reverse

/-- The record of a fault.  A machine that was not run has none. -/
def ofOutcome : Outcome → List Record
  | .faulted ⟨.notResumable _, _⟩ => []
  | .faulted e => [⟨.debug, "script faulted: " ++ e.message⟩]
  | _ => []

/-- The records of running a machine, given how that ended.  Instructions are recorded only if they
are asked for. -/
def ofRun (level : Level) (budget : Nat) (m : Machine) (outcome : Outcome) : List Record :=
  match outcome with
  | .faulted ⟨.notResumable _, _⟩ => []
  | _ =>
    (if level = .trace then ofSteps budget { m with status := .running } [] else []) ++
      ofOutcome outcome

/-- The records of checking out a machine, from the pools before and afterwards. -/
def ofRequest (before after : Pool) : List Record :=
  if before.blocks.size = after.blocks.size then []
  else
    [⟨.debug, "VM pool grew to " ++ toString after.blocks.size ++ " blocks, " ++
      toString after.capacity ++ " VMs"⟩]

/-- The records of taking a machine back. -/
def ofReclaim : Except PoolError Pool → List Record
  | .error (.notInUse h) => [⟨.warn, "reclaiming VM " ++ h.text ++ " twice"⟩]
  | _ => []

/-- The records of giving back a machine without looking at the result. -/
def ofGiveBack (pool : Pool) (h : Handle) : List Record :=
  let result := pool.reclaim h
  ofReclaim result ++
    match result with
    | .error e => [⟨.warn, e.message⟩]
    | .ok _ => []

/-- The records of attaching a script, from the pools before and afterwards. -/
def ofAttach (before : Pool) : Except AttachError (Nat × Component × Pool) → List Record
  | .ok (i, c, after) =>
    ofRequest before after ++ (((c.handle? i).bind after.get?).map ofLoad).getD []
  | .error _ => []

/-- The records of a tick of one slot. -/
def ofTickSlot (level : Level) (budget i : Nat) (slot : Option Handle) (pool : Pool) :
    List Record :=
  match slot, Component.tickSlot budget slot pool with
  | some h, (.resumed outcome _, _) =>
    ((pool.get? h).map (ofRun level budget · outcome)).getD [] ++
      match outcome with
      | .faulted e => [⟨.error, "script in slot " ++ toString i ++ " failed: " ++ e.message⟩]
      | _ => []
  | _, (.stale h, _) => [⟨.warn, "script slot " ++ toString i ++ " held a stale VM " ++ h.text⟩]
  | _, _ => []

/-- The records of a tick of several slots, the first of which has the position `i`. -/
def ofTickSlots (level : Level) (budget : Nat) :
    (i : Nat) → List (Option Handle) → Pool → List Record
  | _, [], _ => []
  | i, slot :: rest, pool =>
    ofTickSlot level budget i slot pool ++
      ofTickSlots level budget (i + 1) rest (Component.tickSlot budget slot pool).2.2

/-- The records of a tick. -/
def ofTick (level : Level) (budget : Nat) (c : Component) (pool : Pool) : List Record :=
  ofTickSlots level budget 0 c.slots pool

/-- The records of giving several machines back in order. -/
def ofGiveBackAll : List Handle → Pool → List Record
  | [], _ => []
  | h :: rest, pool => ofGiveBack pool h ++ ofGiveBackAll rest (Component.giveBack pool h)

/-- The records of stopping all scripts. -/
def ofDetachAll (c : Component) (pool : Pool) : List Record :=
  ofGiveBackAll (c.slots.filterMap id) pool

/-- The records that are at least as important as a level, as they are shown. -/
def select (level : Level) (records : List Record) : List String :=
  (records.filter (·.level.rank ≤ level.rank)).map Record.text

end Journal

end EntityScript
