/-
# The integer part of a double

A finite double is `± mantissa * 2 ^ exponent`, so its floor and its integer part are integers that
can be computed without rounding.  Infinities and values that are not numbers have none.
-/

namespace EntityScript.Decimal

/-- A double as an exact fraction, the denominator being a power of two. -/
def fraction? (x : Float) : Option (Int × Nat) :=
  match x.toModel.unpack with
  | .notANumber => none
  | .infinity _ => none
  | .zero _ => some (0, 1)
  | .finite sign mantissa exponent _ =>
    let magnitude : Int := mantissa <<< exponent.toNat
    let numerator := match sign with
      | .negative => -magnitude
      | .positive => magnitude
    some (numerator, 1 <<< (-exponent).toNat)

/-- The greatest integer that is at most `x`. -/
def floor? (x : Float) : Option Int :=
  (fraction? x).map fun (numerator, denominator) => numerator.fdiv denominator

/-- `x` without its fractional part, toward zero. -/
def truncate? (x : Float) : Option Int :=
  (fraction? x).map fun (numerator, denominator) => numerator.tdiv denominator

end EntityScript.Decimal
