/-
# The shortest decimal that names a binary number

A finite positive double is `mantissa * 2 ^ exponent` with a mantissa below `2 ^ 53`.  The reals
that round to it form an interval, whose ends belong to it exactly when the mantissa is even.
`shortest` looks for the coarsest decimal grid with a point in that interval, and takes the point
nearest to the number.  Everything is computed with natural numbers, so nothing is rounded.
-/

namespace EntityScript.Decimal

/-- The decimal number `digits * 10 ^ exponent`. -/
structure Numeral where
  digits : Nat
  exponent : Int
deriving DecidableEq, Repr, Inhabited

/-- How many decimal digits a natural number has; zero has one. -/
def digitCount (n : Nat) : Nat :=
  (Nat.toDigits 10 n).length

/-- A bound on the number of leading zeros after the point of the least positive double. -/
def deepestPlace : Nat := 344

/-- The least `p` for which `mantissa * 2 ^ exponent` is below `10 ^ p`, for a positive double. -/
def magnitude (mantissa : Nat) (exponent : Int) : Int :=
  digitCount ((mantissa <<< exponent.toNat * Nat.pow 10 deepestPlace) >>> (-exponent).toNat) -
    deepestPlace

/-- Four times the distance from `mantissa * 2 ^ exponent` down to the end of its interval, in units
of `2 ^ exponent`.  Below a power of two the doubles lie twice as dense, except at the bottom of the
range. -/
def lowerGap (mantissa : Nat) (exponent : Int) : Nat :=
  if mantissa = 1 <<< 52 ∧ -1074 < exponent then 1 else 2

/-- The point of the grid of multiples of `10 ^ place` that lies in the interval of
`mantissa * 2 ^ exponent`, nearest to it; of two equally near points the larger. -/
def pointOnGrid? (mantissa : Nat) (exponent place : Int) : Option Nat :=
  let grid := Nat.pow 10 place.toNat <<< (2 - exponent).toNat
  let unit := Nat.pow 10 (-place).toNat <<< (exponent - 2).toNat
  let value := 4 * mantissa * unit
  let low := (4 * mantissa - lowerGap mantissa exponent) * unit
  let high := (4 * mantissa + 2) * unit
  let inside (point : Nat) : Bool :=
    if mantissa % 2 = 0 then low ≤ point && point ≤ high else low < point && point < high
  let below := value / grid
  match inside (below * grid), inside ((below + 1) * grid) with
  | true, true =>
    if value - below * grid < (below + 1) * grid - value then some below else some (below + 1)
  | true, false => some below
  | false, true => some (below + 1)
  | false, false => none

/-- A decimal that ends in a zero, written with one digit less. -/
def Numeral.dropZero (d : Numeral) : Numeral :=
  if d.digits % 10 = 0 then ⟨d.digits / 10, d.exponent + 1⟩ else d

/-- The decimal with the fewest digits among those that round to the double
`mantissa * 2 ^ exponent`, and of these the nearest to it.  Seventeen digits always suffice. -/
def shortest (mantissa : Nat) (exponent : Int) : Numeral :=
  let top := magnitude mantissa exponent
  let found := (List.range 17).findSome? fun (i : Nat) =>
    let place : Int := top - (i + 1 : Nat)
    (pointOnGrid? mantissa exponent place).map fun point => (⟨point, place⟩ : Numeral)
  (found.getD ⟨mantissa, 0⟩).dropZero

end EntityScript.Decimal
