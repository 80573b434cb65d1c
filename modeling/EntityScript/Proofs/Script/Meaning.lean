/-
# What a script means

The meaning of a script is read off its tree, with names for variables and no code.  Running it
shows observations to a caller, one after the other, and ends with a result or halts.

* Every call has locals of its own.  A name stands for the nearest declaration in the call, else for
a global; a function does not see the locals of the functions around it.
* The callee is evaluated before the arguments, and operands from left to right.  Only `false` takes
the alternative of a conditional and ends a loop.
* The number of arguments is looked at before the number of active calls.

Calls are at most sixteen deep, so only loops can go on forever.  They get a number of rounds,
`fuel`; a script that needs more halts with `timeout`, and what it has shown until then is what it
shows anyway.
-/
import EntityScript.Machine.Run
import EntityScript.Proofs.Script.Elaborate

namespace EntityScript

/-- What a caller sees of a script, in order: each character that is printed, and how each call of
`resume` ended. -/
inductive Observation where
  | char (c : Char)
  | exited (e : Exit)
  | faulted (e : Fault)
deriving DecidableEq, Repr

/-- A text as it is seen. -/
def Observation.ofText (text : String) : List Observation :=
  text.toList.map .char

/-! ## Objects -/

/-- A function as it is written.  A script is a function without a name, whose declarations are
global. -/
structure Routine where
  id : FunctionId
  name : Option String
  parameters : List String
  body : List Clause

/-- A function as it is printed. -/
def Routine.text (r : Routine) : String :=
  match r.name with
  | none => "<script>"
  | some name => "<fn " ++ name ++ ">"

/-- What a value can refer to while a tree is run. -/
inductive Thing where
  | string (text : String)
  | routine (r : Routine)
  | native (n : Native)

namespace Thing

/-- The text of a string. -/
def string? : Thing → Option String
  | .string text => some text
  | _ => none

/-- Whether a thing is the function with a given number. -/
def isRoutine (id : FunctionId) : Thing → Bool
  | .routine r => r.id == id
  | _ => false

/-- Whether two things are the same. -/
def same : Thing → Thing → Bool
  | .string s, .string t => s == t
  | .routine r, .routine q => r.id == q.id
  | .native m, .native n => m.name == n.name && m.edition == n.edition
  | _, _ => false

/-- A thing as it is printed. -/
def text : Thing → String
  | .string s => s
  | .routine r => r.text
  | .native n => n.text

end Thing

/-- The things that there are, in the order in which they came up. -/
abbrev Store := List Thing

namespace Store

/-- The thing behind a reference. -/
def get? (s : Store) (ref : Ref) : Option Thing :=
  s[ref.index]?

/-- The first thing that passes a test, or else a new one. -/
def find (s : Store) (test : Thing → Bool) (new : Thing) : Ref × Store :=
  match s.findIdx? test with
  | some i => (⟨i⟩, s)
  | none => (⟨s.length⟩, s ++ [new])

/-- The string with a text. -/
def intern (s : Store) (text : String) : Ref × Store :=
  s.find (·.string? = some text) (.string text)

/-- The function with the number of the given one. -/
def routine (s : Store) (r : Routine) : Ref × Store :=
  s.find (·.isRoutine r.id) (.routine r)

/-- A new thing for a native. -/
def native (s : Store) (n : Native) : Ref × Store :=
  (⟨s.length⟩, s ++ [.native n])

/-- Equality of values.  Things are compared by what they are. -/
def equal (s : Store) : Value → Value → Bool
  | .object a, .object b =>
    match s.get? a, s.get? b with
    | some x, some y => x.same y
    | _, _ => false
  | a, b => a.same b

/-- A value as `print` shows it. -/
def display (s : Store) : Value → String
  | .object ref =>
    match s.get? ref with
    | some thing => thing.text
    | none => "<dangling object " ++ toString ref.index ++ ">"
  | v => v.text

/-- The sum of two values; strings are joined. -/
def sum (s : Store) : Value → Value → Except OperandError (Value × Store)
  | .object x, .object y =>
    match (s.get? x).bind Thing.string?, (s.get? y).bind Thing.string? with
    | some t, some u => .ok (.object (s.intern (t ++ u)).1, (s.intern (t ++ u)).2)
    | _, _ => .error (.binaryMismatch .add .object .object)
  | a, b => (a.add b).map (·, s)

end Store

/-! ## Computations -/

/-- All that a script can change: the locals of the call, the nearest first, the globals and the
things. -/
structure World where
  locals : List (String × Value)
  globals : Std.TreeMap String Value
  store : Store
  /-- Where printed text goes. -/
  sink : Sink

/-- Why a script does not go on. -/
inductive Halt where
  | fault (e : Fault)
  /-- It came to an `end`. -/
  | stopped
  /-- A loop had no rounds left. -/
  | timeout
  /-- The script breaks a static rule. -/
  | stuck

/-- A computation shows observations, and gives a result and a new world unless it halts. -/
def Act (α : Type) : Type :=
  World → List Observation × Except Halt (α × World)

namespace Act

variable {α β : Type}

/-- Gives a result at once. -/
protected def pure (a : α) : Act α :=
  fun w => ([], .ok (a, w))

/-- One computation after the other. -/
protected def bind (x : Act α) (f : α → Act β) : Act β :=
  fun w =>
    match x w with
    | (seen, .ok (a, w)) => (seen ++ (f a w).1, (f a w).2)
    | (seen, .error h) => (seen, .error h)

instance : Monad Act where
  pure := Act.pure
  bind := Act.bind

/-- Does not go on. -/
def halt (h : Halt) : Act α :=
  fun _ => ([], .error h)

/-- Stops with a fault. -/
def fault (e : Fault) : Act α :=
  halt (.fault e)

/-- The world. -/
def world : Act World :=
  fun w => ([], .ok (w, w))

/-- Goes on in another world. -/
def become (w : World) : Act Unit :=
  fun _ => ([], .ok ((), w))

/-- Shows something to the caller. -/
def observe (seen : List Observation) : Act Unit :=
  fun w => (seen, .ok ((), w))

/-- The result of an operator. -/
def operand : Except OperandError α → Act α
  | .ok a => pure a
  | .error e => fault (.operand e)

/-- The value of a thing that is looked up in the store. -/
def refer (find : Store → Ref × Store) : Act Value := do
  let w ← world
  become { w with store := (find w.store).2 }
  return .object (find w.store).1

/-- The value of a variable: of the nearest local with this name, or else of the global. -/
def read (x : String) : Act Value := do
  let w ← world
  match w.locals.lookup x with
  | some v => return v
  | none =>
    match w.globals[x]? with
    | some v => return v
    | none => fault (.undefinedVariable x)

end Act

/-- The locals, after the nearest one with a name got a value. -/
def setNearest (x : String) (v : Value) : List (String × Value) → List (String × Value)
  | [] => []
  | (y, old) :: rest => if y = x then (y, v) :: rest else (y, old) :: setNearest x v rest

namespace Act

/-- Gives a variable that exists another value. -/
def write (x : String) (v : Value) : Act Unit := do
  let w ← world
  match w.locals.lookup x with
  | some _ => become { w with locals := setNearest x v w.locals }
  | none =>
    match w.globals[x]? with
    | some _ => become { w with globals := w.globals.insert x v }
    | none => fault (.undefinedVariable x)

/-- Declares a variable: a global outside all blocks of a script, and a local elsewhere. -/
def define (top : Bool) (x : String) (v : Value) : Act Unit := do
  let w ← world
  if top then become { w with globals := w.globals.insert x v }
  else become { w with locals := (x, v) :: w.locals }

/-- Prints a value on a line of its own. -/
def print (v : Value) : Act Unit := do
  let w ← world
  match w.sink with
  | .accepting => observe (Observation.ofText (w.store.display v ++ "\n"))
  | .broken reason => fault (.output reason)

/-- The sum of two values. -/
def sum (a b : Value) : Act Value := do
  let w ← world
  let (v, store) ← operand (w.store.sum a b)
  become { w with store := store }
  return v

/-- Whether two values are equal. -/
def equal (a b : Value) : Act Value := do
  let w ← world
  return .bool (w.store.equal a b)

/-- Applies a native to its arguments, whose number is looked at first. -/
def native (n : Native) (arguments : List Value) : Act Value :=
  if n.arity.any (· ≠ arguments.length) then
    fault (.arityMismatch (n.arity.getD 0) arguments.length)
  else
    match n.call arguments with
    | .ok v => return v
    | .error message => fault (.native n.name message)

/-- Forgets the locals of a block: all but the first `n` that were declared. -/
def forget (n : Nat) : Act Unit := do
  let w ← world
  become { w with locals := w.locals.drop (w.locals.length - n) }

end Act

/-- The number that a token's text stands for. -/
def Value.ofNumber? (text : String) : Option Value :=
  match numberLiteral? text with
  | some (.int n) => some (.int n)
  | some (.float bits) => some (.float (Float.ofBits bits))
  | _ => none

namespace UnaryOp

/-- Applies an operator to its operand. -/
def apply : UnaryOp → Value → Act Value
  | .negate, a => Act.operand a.negate
  | .not, a => Act.operand a.not

end UnaryOp

namespace BinaryOp

/-- Applies an operator to its operands.  Of two comparisons that are opposites, one is the negation
of the other, also where numbers cannot be compared. -/
def apply : BinaryOp → Value → Value → Act Value
  | .add, a, b => Act.sum a b
  | .subtract, a, b => Act.operand (a.subtract b)
  | .multiply, a, b => Act.operand (a.multiply b)
  | .divide, a, b => Act.operand (a.divide b)
  | .equal, a, b => Act.equal a b
  | .notEqual, a, b => do Act.operand (← Act.equal a b).not
  | .less, a, b => Act.operand (a.less b)
  | .lessEqual, a, b => do Act.operand (← Act.operand (a.greater b)).not
  | .greater, a, b => Act.operand (a.greater b)
  | .greaterEqual, a, b => do Act.operand (← Act.operand (a.less b)).not

end BinaryOp

/-! ## Trees -/

/-- What the parts of a function need to know: the script they are from, the rounds that a loop has,
and how another function is called. -/
structure Env where
  unit : Nat
  fuel : Nat
  call : Routine → List Value → Act Value

/-- Calls a value. -/
def Env.apply (env : Env) (callee : Value) (arguments : List Value) : Act Value :=
  match callee with
  | .object ref => do
    match (← Act.world).store.get? ref with
    | some (.routine r) =>
      if r.parameters.length ≠ arguments.length then
        Act.fault (.arityMismatch r.parameters.length arguments.length)
      else env.call r arguments
    | some (.native n) => Act.native n arguments
    | some (.string _) => Act.fault (.notCallable "string")
    | none => Act.fault .danglingObject
  | v => Act.fault (.notCallable v.tag.name)

mutual

/-- The value of an expression. -/
def Term.eval (env : Env) : Term → Act Value
  | .nil _ => return .nil
  | .bool b _ => return .bool b
  | .number text _ =>
    match Value.ofNumber? text with
    | some v => return v
    | none => Act.halt .stuck
  | .string text _ => Act.refer (·.intern (unquote text))
  | .name x _ => Act.read x
  | .assign x value => do
    let v ← value.eval env
    Act.write x v
    return v
  | .assignMember x m value => do
    let assigned ← value.eval env
    match Member.ofName? m with
    | some m =>
      let (v, stored) ← Act.operand ((← Act.read x).setMember m assigned)
      Act.write x v
      return .float stored
    | none => Act.halt .stuck
  | .group e _ => e.eval env
  | .member e m _ => do
    let v ← e.eval env
    match Member.ofName? m with
    | some m => Act.operand (v.member m)
    | none => Act.halt .stuck
  | .unary op e => do
    let a ← e.eval env
    op.apply a
  | .binary op lhs rhs => do
    let a ← lhs.eval env
    let b ← rhs.eval env
    op.apply a b
  | .call callee arguments _ => do
    let f ← callee.eval env
    let vs ← Term.evalAll env arguments
    env.apply f vs

/-- The values of expressions, from left to right. -/
def Term.evalAll (env : Env) : List Term → Act (List Value)
  | [] => return []
  | e :: es => do
    let v ← e.eval env
    let vs ← Term.evalAll env es
    return v :: vs

end

/-- How a statement ends: it goes on, or returns from the function. -/
inductive Flow where
  | next
  | returned (v : Value)

/-- The result of a function whose body has ended. -/
def Flow.result : Flow → Value
  | .next => .nil
  | .returned v => v

/-- A loop with a number of rounds. -/
def Act.loop : Nat → Act Value → Act Flow → Act Flow
  | 0, _, _ => Act.halt .timeout
  | n + 1, cond, body => do
    if (← cond) = .bool false then return .next
    else
      match ← body with
      | .next => Act.loop n cond body
      | .returned v => return .returned v

/-- The first value of a variable, or the value that is returned: nil unless one is written. -/
def Env.value (env : Env) : Option Term → Act Value
  | some e => e.eval env
  | none => return .nil

mutual

/-- Runs a statement or a declaration; `top` says whether it is outside all blocks of a script. -/
def Clause.exec (env : Env) (top : Bool) : Clause → Act Flow
  | .expr e _ => do
    discard (e.eval env)
    return .next
  | .print e _ => do
    Act.print (← e.eval env)
    return .next
  | .declare x _ init _ => do
    Act.define top x (← env.value init)
    return .next
  | .function site x parameters body _ => do
    Act.define top x (← Act.refer (·.routine ⟨⟨env.unit, site⟩, some x, parameters, body⟩))
    return .next
  | .ifThen cond _ body => do
    if (← cond.eval env) = .bool false then return .next else body.exec env top
  | .ifElse cond _ body other => do
    if (← cond.eval env) = .bool false then other.exec env top else body.exec env top
  | .loop cond _ body => Act.loop env.fuel (cond.eval env) (body.exec env top)
  | .ret value _ => do return .returned (← env.value value)
  | .yield _ => do
    Act.observe [.exited .yielded]
    return .next
  | .stop _ => Act.halt .stopped
  | .block body _ => do
    let outer := (← Act.world).locals.length
    let flow ← Clause.execAll env false body
    Act.forget outer
    return flow

/-- Runs statements and declarations in order, up to one that returns. -/
def Clause.execAll (env : Env) (top : Bool) : List Clause → Act Flow
  | [] => return .next
  | s :: ss => do
    match ← s.exec env top with
    | .next => Clause.execAll env top ss
    | .returned v => return .returned v

end

/-- Calls a function when this many calls may still become active.  The locals of the caller come
back when the call is over. -/
def Routine.invoke (fuel : Nat) : Nat → Routine → List Value → Act Value
  | 0, _, _ => Act.fault .stackOverflow
  | n + 1, r, arguments => do
    let caller ← Act.world
    Act.become { caller with locals := (r.parameters.zip arguments).reverse }
    let flow ← Clause.execAll ⟨r.id.unit, fuel, Routine.invoke fuel n⟩ r.name.isNone r.body
    Act.become { ← Act.world with locals := caller.locals }
    return flow.result

/-! ## Scripts -/

mutual

/-- The functions that a statement declares, to any depth. -/
def Clause.routines (unit : Nat) : Clause → List Routine
  | .function site x parameters body _ =>
    ⟨⟨unit, site⟩, some x, parameters, body⟩ :: Clause.routinesAll unit body
  | .ifThen _ _ body => body.routines unit
  | .ifElse _ _ body other => body.routines unit ++ other.routines unit
  | .loop _ _ body => body.routines unit
  | .block body _ => Clause.routinesAll unit body
  | .expr _ _ | .print _ _ | .declare _ _ _ _ | .ret _ _ | .yield _ | .stop _ => []

/-- The functions that statements declare, to any depth. -/
def Clause.routinesAll (unit : Nat) : List Clause → List Routine
  | [] => []
  | s :: ss => s.routines unit ++ Clause.routinesAll unit ss

end

/-- A script as a function. -/
def Script.main (unit : Nat) (s : Script) : Routine :=
  ⟨⟨unit, 0⟩, none, [], s.body⟩

/-- The function of a script with a given number. -/
def Script.routine? (unit : Nat) (s : Script) (serial : Nat) : Option Routine :=
  (s.main unit :: Clause.routinesAll unit s.body).find? (·.id = ⟨unit, serial⟩)

/-- The texts of a script in the order of their first use: its strings, and the names of its
globals. -/
def Script.texts (s : Script) (unit : Nat) (globals : List String) : List String :=
  match Clause.elaborateAll s.body .empty (.start unit globals) with
  | some (_, c) => c.strings.reverse
  | none => []

namespace World

/-- Makes a string. -/
def intern (w : World) (text : String) : World :=
  { w with store := (w.store.intern text).2 }

/-- Makes a global for a thing. -/
def bind (w : World) (name : String) (made : Ref × Store) : World :=
  { w with store := made.2, globals := w.globals.insert name (.object made.1) }

/-- Binds the name of a function of the host to what the script it comes from says it is. -/
def bindRoutine (scripts : Nat → Script) (w : World) (name : String) (f : Function) : World :=
  match (scripts f.id.unit).routine? f.id.unit f.id.serial with
  | some r => w.bind name (w.store.routine r)
  | none => w

/-- The world before a script runs: the texts of the script come first, then the functions of the
host, the compiled ones last. -/
def start (scripts : Nat → Script) (host : Host) (texts : List String) (sink : Sink) : World :=
  let w : World := texts.foldl intern ⟨[], {}, [], sink⟩
  let w := host.natives.foldl (fun w name n => w.bind name (w.store.native n)) w
  host.scripts.foldl (bindRoutine scripts) w

end World

/-- What a caller sees of a whole run. -/
def Act.seen {α : Type} (x : Act α) (w : World) : List Observation :=
  match x w with
  | (seen, .ok _) => seen ++ [.exited .finished]
  | (seen, .error .stopped) => seen ++ [.exited .finished]
  | (seen, .error (.fault e)) => seen ++ [.faulted e]
  | (seen, .error .timeout) => seen
  | (seen, .error .stuck) => seen

/-- What a caller sees of a script whose loops have a number of rounds.  The script itself is the
first of the active calls. -/
def Script.seen (scripts : Nat → Script) (host : Host) (unit : Nat) (globals : List String)
    (sink : Sink) (fuel : Nat) : List Observation :=
  let s := scripts unit
  let w := World.start scripts host (s.texts unit globals) sink
  let ready := { w with store := (w.store.routine (s.main unit)).2 }
  Act.seen (Routine.invoke fuel frameLimit (s.main unit) []) ready

end EntityScript
