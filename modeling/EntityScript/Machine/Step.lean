/-
# Executing instructions

`step` executes one instruction of the innermost call.  It either goes on, prints a line, hands
control back, or fails with a fault; the machine as it was at the fault is kept for the trace.
-/
import EntityScript.Machine.Basic

namespace EntityScript

/-- Why a program hands control back. -/
inductive Exit where
  /-- It wants to be resumed. -/
  | yielded
  /-- It is done. -/
  | finished
deriving DecidableEq, Repr

/-- What an instruction reports. -/
inductive Signal where
  | next
  /-- Text was printed. -/
  | printed (text : String)
  | exit (e : Exit)
deriving DecidableEq, Repr

/-- A computation on a machine that may fail. -/
abbrev Exec := EStateM Fault Machine

namespace Exec

/-- The innermost call. -/
def frame : Exec Frame := do
  match (← get).frames with
  | frame :: _ => return frame
  | [] => throw .noFrame

/-- Moves the innermost call to another instruction. -/
def goto (cursor : Nat) : Exec Unit :=
  modify fun m =>
    match m.frames with
    | frame :: rest => { m with frames := { frame with cursor := cursor } :: rest }
    | [] => m

/-- Reads the next instruction and moves past it. -/
def fetch : Exec Instruction := do
  let frame ← frame
  match frame.function.chunk.instruction? frame.cursor with
  | some i =>
    goto (frame.cursor + 1)
    return i
  | none => throw (.ranOffEnd frame.function.displayName)

/-- Pushes a value. -/
def push (v : Value) : Exec Unit := do
  if (← get).stack.size < stackLimit then modify fun m => { m with stack := m.stack.push v }
  else throw .valueStackOverflow

/-- The part of the stack that no instruction pops: up to the innermost function itself. -/
def floor (m : Machine) : Nat :=
  match m.frames with
  | frame :: _ => frame.base + 1
  | [] => 0

/-- Pops a value. -/
def pop : Exec Value := do
  let m ← get
  match m.stack.back? with
  | some v =>
    if m.stack.size ≤ floor m then throw .stackUnderflow
    else
      modify fun m => { m with stack := m.stack.pop }
      return v
  | none => throw .stackUnderflow

/-- The top value. -/
def peek : Exec Value := do
  match (← get).stack.back? with
  | some v => return v
  | none => throw .stackUnderflow

/-- A literal of the innermost function. -/
def literal (index : Nat) : Exec Literal := do
  match (← frame).function.chunk.literal? index with
  | some l => return l
  | none => throw (.badLiteral index)

/-- A literal that names a global. -/
def nameAt (index : Nat) : Exec String := do
  match ← literal index with
  | .string name => return name
  | _ => throw (.badLiteral index)

/-- The value of a literal; strings and functions become objects. -/
def literalValue : Literal → Exec Value
  | .int n => return .int n
  | .float bits => return .float (Float.ofBits bits)
  | .string text =>
    modifyGet fun m =>
      let (ref, heap) := m.heap.intern text
      (.object ref, { m with heap := heap })
  | .function f =>
    modifyGet fun m =>
      let (ref, heap) := m.heap.function f
      (.object ref, { m with heap := heap })

/-- The value of a global. -/
def getGlobal (name : String) : Exec Value := do
  match (← get).globals[name]? with
  | some v => return v
  | none => throw (.undefinedVariable name)

/-- Stores a value in a global. -/
def putGlobal (name : String) (v : Value) : Exec Unit :=
  modify fun m => { m with globals := m.globals.insert name v }

/-- The value in a slot of the innermost call. -/
def getSlot (slot : Nat) : Exec Value := do
  let base := (← frame).base
  match (← get).stack[base + slot]? with
  | some v => return v
  | none => throw .stackUnderflow

/-- Stores a value in a slot of the innermost call. -/
def putSlot (slot : Nat) (v : Value) : Exec Unit := do
  let base := (← frame).base
  modify fun m => { m with stack := m.stack.setIfInBounds (base + slot) v }

/-- The result of an operator. -/
def operand {α : Type} : Except OperandError α → Exec α
  | .ok a => return a
  | .error e => throw (.operand e)

/-- Replaces the top value. -/
def unary (f : Value → Except OperandError Value) : Exec Unit := do
  let a ← pop
  push (← operand (f a))

/-- Replaces the two top values. -/
def binary (f : Value → Value → Except OperandError Value) : Exec Unit := do
  let b ← pop
  let a ← pop
  push (← operand (f a b))

/-- The sum of two values, strings included. -/
def sum : Value → Value → Exec Value
  | .object x, .object y => do
    let m ← get
    match (m.heap.get? x).bind Object.string?, (m.heap.get? y).bind Object.string? with
    | some s, some t => literalValue (.string (s ++ t))
    | _, _ => throw (.operand (.binaryMismatch .add .object .object))
  | a, b => operand (a.add b)

/-- Cuts the stack down. -/
def truncate (size : Nat) : Exec Unit :=
  modify fun m => { m with stack := m.stack.take size }

/-- Enters a compiled function whose place on the stack is known. -/
def enter (f : Function) (base arguments : Nat) : Exec Unit := do
  if f.arity ≠ arguments then throw (.arityMismatch f.arity arguments)
  else if frameLimit ≤ (← get).frames.length then throw .stackOverflow
  else modify fun m => { m with frames := ⟨f, 0, base⟩ :: m.frames }

/-- Applies a native: its place and its arguments on the stack give way to its result. -/
def applyNative (n : Native) (base : Nat) : Exec Unit := do
  match n.call ((← get).stack.toList.drop (base + 1)) with
  | .ok v =>
    truncate base
    push v
  | .error message => throw (.native n.name message)

/-- Calls a native whose place on the stack is known. -/
def callNative (n : Native) (base arguments : Nat) : Exec Unit :=
  match n.arity with
  | none => applyNative n base
  | some expected =>
    if expected ≠ arguments then throw (.arityMismatch expected arguments)
    else applyNative n base

/-- Calls the value below the arguments. -/
def call (arguments : Nat) : Exec Unit := do
  let m ← get
  if m.stack.size < arguments + 1 then throw .stackUnderflow
  else
    let base := m.stack.size - (arguments + 1)
    match m.stack[base]? with
    | some (.object ref) =>
      match m.heap.get? ref with
      | some (.function f) => enter f base arguments
      | some (.native n) => callNative n base arguments
      | some (.string _) => throw (.notCallable "string")
      | none => throw .danglingObject
    | some v => throw (.notCallable v.tag.name)
    | none => throw .stackUnderflow

/-- Leaves the innermost call with the top value as its result. -/
def leave : Exec Signal := do
  let result ← pop
  match (← get).frames with
  | frame :: rest =>
    modify fun m => { m with frames := rest }
    truncate frame.base
    if rest.isEmpty then return .exit .finished
    else
      push result
      return .next
  | [] => throw .noFrame

/-- Prints a line. -/
def print (text : String) : Exec Signal := do
  match (← get).sink with
  | .accepting => return .printed (text ++ "\n")
  | .broken reason => throw (.output reason)

/-- Executes an instruction, after the cursor has moved past it. -/
def execute : Instruction → Exec Signal
  | .literal index => do
    push (← literalValue (← literal index))
    return .next
  | .nil => do
    push .nil
    return .next
  | .yes => do
    push (.bool true)
    return .next
  | .no => do
    push (.bool false)
    return .next
  | .pop => do
    discard pop
    return .next
  | .defineGlobal index => do
    let name ← nameAt index
    putGlobal name (← pop)
    return .next
  | .getGlobal index => do
    push (← getGlobal (← nameAt index))
    return .next
  | .setGlobal index => do
    let name ← nameAt index
    let v ← peek
    discard (getGlobal name)
    putGlobal name v
    return .next
  | .getLocal slot => do
    push (← getSlot slot)
    return .next
  | .setLocal slot => do
    let v ← peek
    discard (getSlot slot)
    putSlot slot v
    return .next
  | .getMember m => do
    unary (·.member m)
    return .next
  | .setGlobalMember index m => do
    let name ← nameAt index
    let assigned ← pop
    let (v, stored) ← operand ((← getGlobal name).setMember m assigned)
    putGlobal name v
    push (.float stored)
    return .next
  | .setLocalMember slot m => do
    let assigned ← pop
    let (v, stored) ← operand ((← getSlot slot).setMember m assigned)
    putSlot slot v
    push (.float stored)
    return .next
  | .equal => do
    let b ← pop
    let a ← pop
    push (.bool ((← get).heap.equal a b))
    return .next
  | .greater => do
    binary Value.greater
    return .next
  | .less => do
    binary Value.less
    return .next
  | .add => do
    let b ← pop
    let a ← pop
    push (← sum a b)
    return .next
  | .subtract => do
    binary Value.subtract
    return .next
  | .multiply => do
    binary Value.multiply
    return .next
  | .divide => do
    binary Value.divide
    return .next
  | .not => do
    unary Value.not
    return .next
  | .negate => do
    unary Value.negate
    return .next
  | .print => do
    let v ← pop
    print ((← get).display v)
  | .jump offset => do
    goto ((← frame).cursor + offset)
    return .next
  | .jumpIfFalse offset => do
    if (← peek) = .bool false then goto ((← frame).cursor + offset)
    return .next
  | .loop offset => do
    let frame ← frame
    if frame.cursor < offset then throw (.badJump frame.function.displayName)
    else
      goto (frame.cursor - offset)
      return .next
  | .call arguments => do
    call arguments
    return .next
  | .ret => leave
  | .yield => return .exit .yielded
  | .stop => do
    modify fun m => { m with frames := [], stack := #[] }
    return .exit .finished

/-- Executes one instruction. -/
def step : Exec Signal := do
  execute (← fetch)

end Exec

end EntityScript
