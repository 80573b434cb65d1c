/-
# Values

The values a script works with.  All of them are plain data except objects (strings and functions),
which live in the heap of the machine that runs the script and are named by a reference.
-/
import EntityScript.Decimal.Plain
import EntityScript.Geometry

namespace EntityScript

/-- The members that can be read and assigned with a dot. -/
inductive Member where
  /-- The magnitude of a vector. -/
  | r
  /-- The angle of a vector. -/
  | t
  /-- The first coordinate of a point. -/
  | x
  /-- The second coordinate of a point. -/
  | y
deriving DecidableEq, Repr, Inhabited

/-- The name of an object in a heap: its position there. -/
structure Ref where
  index : Nat
deriving DecidableEq, Repr, Inhabited

/-- A value of a script. -/
inductive Value where
  | nil
  | bool (b : Bool)
  | int (n : Int64)
  | float (x : Float)
  | vector (v : Vec)
  | point (p : Point)
  | object (ref : Ref)
deriving DecidableEq, Inhabited

/-- The kinds of value, as error messages name them. -/
inductive Tag where
  | nil
  | bool
  | int
  | float
  | vector
  | point
  | object
deriving DecidableEq, Repr, Inhabited

namespace Member

/-- The member written with a given name. -/
def ofName? : String → Option Member
  | "r" => some .r
  | "t" => some .t
  | "x" => some .x
  | "y" => some .y
  | _ => none

/-- The name of a member, as it is written after a dot. -/
def name : Member → String
  | .r => "r"
  | .t => "t"
  | .x => "x"
  | .y => "y"

/-- The kind of value that has a member. -/
def owner : Member → Tag
  | .r | .t => .vector
  | .x | .y => .point

end Member

namespace Tag

/-- The word for a kind of value. -/
def name : Tag → String
  | .nil => "nil"
  | .bool => "bool"
  | .int => "int"
  | .float => "float"
  | .vector => "vector"
  | .point => "point"
  | .object => "object"

end Tag

namespace Value

/-- The kind of a value. -/
def tag : Value → Tag
  | .nil => .nil
  | .bool _ => .bool
  | .int _ => .int
  | .float _ => .float
  | .vector _ => .vector
  | .point _ => .point
  | .object _ => .object

/-- A number as a double: an integer becomes the nearest double. -/
def toFloat? : Value → Option Float
  | .int n => some (Float.ofInt n.toInt)
  | .float x => some x
  | _ => none

/-- Whether a value is an integer or a double. -/
def isNumber (v : Value) : Bool :=
  v.toFloat?.isSome

/-- Whether a value is an object. -/
def isObject : Value → Bool
  | .object _ => true
  | _ => false

/-- A value as text; an object shows as its reference. -/
def text : Value → String
  | .nil => "nil"
  | .bool b => if b then "true" else "false"
  | .int n => toString n.toInt
  | .float x => Decimal.render x
  | .vector v => "<" ++ Decimal.render v.r ++ ", " ++ Decimal.render v.t ++ ">"
  | .point p => "(" ++ Decimal.render p.x ++ ", " ++ Decimal.render p.y ++ ")"
  | .object ref => "<object " ++ toString ref.index ++ ">"

/-- Equality of values that does not look into the heap.  Values of different kinds differ, so the
integer one is not the double one. -/
def same : Value → Value → Bool
  | .nil, .nil => true
  | .bool a, .bool b => a == b
  | .int a, .int b => a == b
  | .float a, .float b => a == b
  | .vector a, .vector b => a.same b
  | .point a, .point b => a.same b
  | .object a, .object b => a == b
  | _, _ => false

end Value

end EntityScript
