/-
# Runtime errors

Why a script stops, and where: a fault together with the active calls, the innermost first.
-/
import EntityScript.Value.Arithmetic

namespace EntityScript

/-- What can go wrong while a script runs. -/
inductive Fault where
  /-- The value stack is full. -/
  | valueStackOverflow
  /-- Too many calls are active. -/
  | stackOverflow
  | stackUnderflow
  | arityMismatch (expected got : Nat)
  | undefinedVariable (name : String)
  /-- Something other than a function was called. -/
  | notCallable (what : String)
  | operand (e : OperandError)
  /-- A native refused its arguments. -/
  | native (name message : String)
  /-- The output took no text. -/
  | output (reason : String)
  /-- The machine was in no state to run. -/
  | notResumable (status : String)
  | badLiteral (index : Nat)
  | ranOffEnd (function : String)
  | badJump (function : String)
  | noFrame
  | danglingObject
deriving DecidableEq, Repr

/-- The wording of a fault. -/
def Fault.message : Fault → String
  | .valueStackOverflow => "Value stack overflow."
  | .stackOverflow => "Stack overflow."
  | .stackUnderflow => "Stack underflow."
  | .arityMismatch expected got =>
    "Expected " ++ toString expected ++ " arguments but got " ++ toString got ++ "."
  | .undefinedVariable name => "Undefined variable '" ++ name ++ "'."
  | .notCallable what => "Can only call functions, not " ++ what ++ "."
  | .operand e => e.message
  | .native name message => name ++ ": " ++ message
  | .output reason => "Failed to write output: " ++ reason
  | .notResumable status => "Can't run a VM that is " ++ status ++ "."
  | .badLiteral index => "No literal at index " ++ toString index ++ "."
  | .ranOffEnd function => "Ran past the end of " ++ function ++ "."
  | .badJump function => "Jumped before the start of " ++ function ++ "."
  | .noFrame => "No function is running."
  | .danglingObject => "Object reference is no longer valid."

/-- An active call in a trace: the function, without a name for the script itself, and the line it
has reached. -/
structure TraceFrame where
  function : Option String
  line : Nat
deriving DecidableEq, Repr

/-- A line of a trace. -/
def TraceFrame.text (f : TraceFrame) : String :=
  "[line " ++ toString f.line ++ "] in " ++
    match f.function with
    | some name => name ++ "()"
    | none => "unnamed script"

/-- A fault and the calls that were active, the innermost first. -/
structure RuntimeError where
  fault : Fault
  trace : List TraceFrame
deriving DecidableEq, Repr

/-- A runtime error as it is shown: the fault, then the trace. -/
def RuntimeError.message (e : RuntimeError) : String :=
  e.trace.foldl (fun text frame => text ++ "\n" ++ frame.text) e.fault.message

end EntityScript
