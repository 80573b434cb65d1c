/-
# Operators on values

Every operator looks at the kinds of its operands when it is applied.  Two integers give an integer,
computed exactly: a result outside sixty-four bits is an error and never wraps.  A number and a
double give a double.  Vectors and points have the operations of the plane.  All other combinations
are errors that name the kinds involved.
-/
import EntityScript.Decimal.Reader
import EntityScript.Value.Basic

namespace EntityScript

/-- The operators that act on values. -/
inductive Operator where
  | add
  | subtract
  | multiply
  | divide
  | less
  | greater
  | negate
  | not
deriving DecidableEq, Repr, Inhabited

/-- How an operator is written. -/
def Operator.symbol : Operator → String
  | .add => "+"
  | .subtract => "-"
  | .multiply => "*"
  | .divide => "/"
  | .less => "<"
  | .greater => ">"
  | .negate => "-"
  | .not => "!"

/-- Why an operator could not be applied. -/
inductive OperandError where
  /-- No rule for this pair of kinds. -/
  | binaryMismatch (op : Operator) (lhs rhs : Tag)
  /-- No rule for this kind. -/
  | unaryMismatch (op : Operator) (operand : Tag)
  /-- A member read or assigned on a value that does not have it. -/
  | noSuchMember (member : Member) (got : Tag)
  /-- Something other than a number assigned to a member. -/
  | memberNotNumber (member : Member) (got : Tag)
  /-- An integer or a vector divided by zero. -/
  | divisionByZero
  /-- An integer result that does not fit. -/
  | integerOverflow (op : Operator)
deriving DecidableEq, Repr

/-- The wording of an operand error. -/
def OperandError.message : OperandError → String
  | .binaryMismatch op lhs rhs =>
    "Operator '" ++ op.symbol ++ "' can't be applied to " ++ lhs.name ++ " and " ++ rhs.name ++ "."
  | .unaryMismatch op operand =>
    "Operator '" ++ op.symbol ++ "' can't be applied to " ++ operand.name ++ "."
  | .noSuchMember member got =>
    "Member '" ++ member.name ++ "' needs a " ++ member.owner.name ++ ", got " ++ got.name ++ "."
  | .memberNotNumber member got =>
    "Member '" ++ member.name ++ "' can only be assigned a number, got " ++ got.name ++ "."
  | .divisionByZero => "Division by zero."
  | .integerOverflow op => "Integer overflow in '" ++ op.symbol ++ "'."

/-- The integer value `n`, if it fits in sixty-four bits; otherwise an overflow of `op`. -/
def exactInt (op : Operator) (n : Int) : Except OperandError Value :=
  if Decimal.fitsWord n then .ok (.int (Int64.ofInt n)) else .error (.integerOverflow op)

/-- An arithmetic operator on numbers: exact on two integers, on doubles otherwise. -/
def numeric (op : Operator) (onInts : Int → Int → Int) (onFloats : Float → Float → Float)
    (a b : Value) : Except OperandError Value :=
  match a, b with
  | .int m, .int n => exactInt op (onInts m.toInt n.toInt)
  | a, b =>
    match a.toFloat?, b.toFloat? with
    | some x, some y => .ok (.float (onFloats x y))
    | _, _ => .error (.binaryMismatch op a.tag b.tag)

/-- A comparison of numbers: two integers as integers, otherwise as doubles. -/
def compareWith (op : Operator) (onInts : Int → Int → Bool) (onFloats : Float → Float → Bool)
    (a b : Value) : Except OperandError Value :=
  match a, b with
  | .int m, .int n => .ok (.bool (onInts m.toInt n.toInt))
  | a, b =>
    match a.toFloat?, b.toFloat? with
    | some x, some y => .ok (.bool (onFloats x y))
    | _, _ => .error (.binaryMismatch op a.tag b.tag)

namespace Value

/-- The sum of two values that are not strings. -/
def add : Value → Value → Except OperandError Value
  | .vector v, .vector w => .ok (.vector (v.add w))
  | .point p, .vector v => .ok (.point (p.add v))
  | a, b => numeric .add (· + ·) (· + ·) a b

/-- The difference of two values. -/
def subtract : Value → Value → Except OperandError Value
  | .vector v, .vector w => .ok (.vector (v.sub w))
  | .point p, .vector v => .ok (.point (p.sub v))
  | a, b => numeric .subtract (· - ·) (· - ·) a b

/-- The product of two values; a vector can be scaled by a number on its right. -/
def multiply (a b : Value) : Except OperandError Value :=
  match a, b.toFloat? with
  | .vector v, some factor => .ok (.vector (v.scale factor))
  | _, _ => numeric .multiply (· * ·) (· * ·) a b

/-- The quotient of two values.  Integers divide toward zero.  An integer or a vector divided by
zero is an error; a double divided by zero is infinite or not a number. -/
def divide : Value → Value → Except OperandError Value
  | .vector v, b =>
    match b.toFloat? with
    | some d =>
      if d == Float.ofNat 0 then .error .divisionByZero
      else .ok (.vector (v.scale (Float.ofNat 1 / d)))
    | none => .error (.binaryMismatch .divide .vector b.tag)
  | .int m, .int n =>
    if n = 0 then .error .divisionByZero else exactInt .divide (m.toInt.tdiv n.toInt)
  | a, b => numeric .divide Int.tdiv (· / ·) a b

/-- The opposite of a number or a vector. -/
def negate : Value → Except OperandError Value
  | .int n => exactInt .negate (-n.toInt)
  | .float x => .ok (.float (-x))
  | .vector v => .ok (.vector v.negate)
  | a => .error (.unaryMismatch .negate a.tag)

/-- The opposite of a truth value. -/
def not : Value → Except OperandError Value
  | .bool b => .ok (.bool !b)
  | a => .error (.unaryMismatch .not a.tag)

/-- Whether the first number is below the second. -/
def less (a b : Value) : Except OperandError Value :=
  compareWith .less (fun m n => m < n) (fun x y => x < y) a b

/-- Whether the first number is above the second. -/
def greater (a b : Value) : Except OperandError Value :=
  compareWith .greater (fun m n => m > n) (fun x y => x > y) a b

/-- Reads a member. -/
def member (a : Value) (m : Member) : Except OperandError Value :=
  match a, m with
  | .vector v, .r => .ok (.float v.r)
  | .vector v, .t => .ok (.float v.t)
  | .point p, .x => .ok (.float p.x)
  | .point p, .y => .ok (.float p.y)
  | a, m => .error (.noSuchMember m a.tag)

/-- The value with one member replaced by a number, and the double that was stored.  The assigned
value is looked at before the value that is changed. -/
def setMember (a : Value) (m : Member) (assigned : Value) : Except OperandError (Value × Float) :=
  match assigned.toFloat? with
  | none => .error (.memberNotNumber m assigned.tag)
  | some number =>
    match a, m with
    | .vector v, .r => .ok (.vector (.polar number v.t), number)
    | .vector v, .t => .ok (.vector (.polar v.r number), number)
    | .point p, .x => .ok (.point { p with x := number }, number)
    | .point p, .y => .ok (.point { p with y := number }, number)
    | a, m => .error (.noSuchMember m a.tag)

end Value

end EntityScript
