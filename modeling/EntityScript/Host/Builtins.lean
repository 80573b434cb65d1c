/-
# Built-in natives

The natives that every host starts with: constructors of vectors and points, and conversions between
numbers.
-/
import EntityScript.Decimal.Reader
import EntityScript.Decimal.Whole
import EntityScript.Host.Basic

namespace EntityScript

namespace Builtin

/-- The argument at a position, which has to be a number. -/
def number (arguments : List Value) (i : Nat) : Except String Float :=
  match arguments[i]? with
  | none => .error ("missing argument " ++ toString (i + 1))
  | some v =>
    match v.toFloat? with
    | some x => .ok x
    | none =>
      .error ("argument " ++ toString (i + 1) ++ " must be a number, got " ++ v.tag.name)

/-- A function of two numbers. -/
def binary (f : Float → Float → Value) (arguments : List Value) : Except String Value := do
  let x ← number arguments 0
  let y ← number arguments 1
  return f x y

/-- An integer that was computed from the double `x`.  The greatest bound is itself a double, one
above the greatest integer, and is taken for it. -/
def toInt (n : Option Int) (x : Float) : Except String Value :=
  match n with
  | some n =>
    if -Decimal.wordBound ≤ n ∧ n ≤ Decimal.wordBound then
      .ok (.int (Int64.ofInt (min n (Decimal.wordBound - 1))))
    else .error (Decimal.render x ++ " does not fit in an int")
  | none => .error (Decimal.render x ++ " does not fit in an int")

/-- The square root of a number. -/
def sqrt (arguments : List Value) : Except String Value := do
  return .float (← number arguments 0).sqrt

/-- The magnitude of a number; an integer stays one. -/
def abs (arguments : List Value) : Except String Value :=
  match arguments with
  | .int n :: _ =>
    if Decimal.fitsWord n.toInt.natAbs then .ok (.int (Int64.ofInt n.toInt.natAbs))
    else .error "integer overflow"
  | _ => do return .float (← number arguments 0).abs

/-- The greatest integer below a number, which is taken as a double. -/
def floor (arguments : List Value) : Except String Value := do
  let x ← number arguments 0
  toInt (Decimal.floor? x) x

/-- A number without its fractional part; an integer stays as it is. -/
def int (arguments : List Value) : Except String Value :=
  match arguments with
  | .int n :: _ => .ok (.int n)
  | _ => do
    let x ← number arguments 0
    toInt (Decimal.truncate? x) x

/-- A number as a double. -/
def float (arguments : List Value) : Except String Value := do
  return .float (← number arguments 0)

/-- All built-in natives. -/
def all (edition : Nat) : List Native :=
  [⟨"vector", some 2, edition, binary fun r t => .vector (.polar r t)⟩,
   ⟨"vector_xy", some 2, edition, binary fun x y => .vector (.cartesian x y)⟩,
   ⟨"point", some 2, edition, binary fun x y => .point ⟨x, y⟩⟩,
   ⟨"sqrt", some 1, edition, sqrt⟩,
   ⟨"abs", some 1, edition, abs⟩,
   ⟨"floor", some 1, edition, floor⟩,
   ⟨"int", some 1, edition, int⟩,
   ⟨"float", some 1, edition, float⟩]

end Builtin

/-- The host with the built-in natives. -/
def Host.builtins : Host :=
  (Builtin.all 0).foldl addNative empty

end EntityScript
