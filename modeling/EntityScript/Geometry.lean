/-
# Vectors and points of the plane

A vector is kept in polar form together with its Cartesian components, which are computed once when
the vector is built.  Changing the magnitude or the angle rebuilds the components from the polar
form; adding vectors rebuilds the polar form from the components.
-/

namespace EntityScript

/-- Half a turn, in radians. -/
def halfTurn : Float := 3.141592653589793

/-- The square root of `x ^ 2 + y ^ 2`, rounded once: the sum is formed without rounding. -/
def hypotenuse (x y : Float) : Float :=
  match x.toModel.unpack, y.toModel.unpack with
  | .infinity _, _ | _, .infinity _ => Float.ofScientific 1 false 400
  | .notANumber, _ | _, .notANumber => Float.ofNat 0 / Float.ofNat 0
  | .zero _, _ => y.abs
  | _, .zero _ => x.abs
  | .finite _ m e _, .finite _ n f _ =>
    let low := min e f
    let sum := ((m <<< (e - low).toNat).pow 2) + ((n <<< (f - low).toNat).pow 2)
    if h : 0 < sum then
      .ofModel (.pack (.sqrt .binary64 (.finite .positive sum (2 * low) h)))
    else Float.ofNat 0

/-- A vector: magnitude `r`, angle `t` in radians, and the components `x` and `y`. -/
structure Vec where
  r : Float
  t : Float
  x : Float
  y : Float
deriving DecidableEq

/-- A position. -/
structure Point where
  x : Float
  y : Float
deriving DecidableEq

namespace Vec

/-- The vector with the given magnitude and angle. -/
def polar (r t : Float) : Vec :=
  ⟨r, t, r * t.cos, r * t.sin⟩

/-- The vector with the given components. -/
def cartesian (x y : Float) : Vec :=
  ⟨hypotenuse x y, Float.atan2 y x, x, y⟩

/-- The same magnitude, pointing the other way. -/
def negate (v : Vec) : Vec :=
  polar v.r (v.t + halfTurn)

/-- The same angle, with the magnitude multiplied. -/
def scale (v : Vec) (factor : Float) : Vec :=
  polar (v.r * factor) v.t

/-- Component-wise sum. -/
def add (v w : Vec) : Vec :=
  cartesian (v.x + w.x) (v.y + w.y)

/-- Component-wise difference. -/
def sub (v w : Vec) : Vec :=
  cartesian (v.x - w.x) (v.y - w.y)

/-- Vectors are equal for a script when magnitude and angle are. -/
def same (v w : Vec) : Bool :=
  v.r == w.r && v.t == w.t

end Vec

namespace Point

/-- The position reached by a vector. -/
def add (p : Point) (v : Vec) : Point :=
  ⟨p.x + v.x, p.y + v.y⟩

/-- The position from which a vector leads here. -/
def sub (p : Point) (v : Vec) : Point :=
  ⟨p.x - v.x, p.y - v.y⟩

/-- Points are equal for a script when both coordinates are. -/
def same (p q : Point) : Bool :=
  p.x == q.x && p.y == q.y

end Point

end EntityScript
