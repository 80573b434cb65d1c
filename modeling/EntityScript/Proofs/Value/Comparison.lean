/-
# Comparing numbers

Two numbers are below, equal or above each other, unless one of them is not a number
(`Value.order?`).  The strict comparisons and equality each pick one of these cases.  The opposite
of a strict comparison is left with the two others, and with the fourth: that there is no order.
-/
import EntityScript.Proofs.Decimal.Nearest
import EntityScript.Value.Arithmetic

namespace EntityScript

/-! ## Doubles -/

namespace Decimal

open Float.Model Float.Model.UnpackedFloat

/-- The order of two doubles the other way round. -/
theorem compare_swap (a b : UnpackedFloat) : b.compare a = (a.compare b).map Ordering.swap := by
  rcases a with (_ | _) | _ | _ | ⟨_ | _, m, e, h⟩ <;>
    rcases b with (_ | _) | _ | _ | ⟨_ | _, k, d, h'⟩ <;>
    try rfl
  -- two finite doubles of one sign are compared by exponent, then by mantissa
  all_goals
    simp only [UnpackedFloat.compare, Option.map_some, Ordering.swap_then]
    rw [Std.OrientedOrd.eq_swap (a := d), Std.OrientedOrd.eq_swap (a := k)]

/-- Only what is not a number has no order. -/
theorem compare_eq_none_iff (a b : UnpackedFloat) : a.compare b = none ↔ a.isNaN = true ∨
    b.isNaN = true := by
  rcases a with (_ | _) | _ | _ | ⟨_ | _, m, e, h⟩ <;>
    rcases b with (_ | _) | _ | _ | ⟨_ | _, k, d, h'⟩ <;>
    simp [UnpackedFloat.compare, UnpackedFloat.isNaN]

/-- How the first of two doubles lies to the second. -/
def order? (x y : Float) : Option Ordering :=
  x.toModel.unpack.compare y.toModel.unpack

/-- A double is below another one if the order says so. -/
theorem lt_eq (x y : Float) : decide (x < y) = (order? x y == some .lt) := by
  rw [Bool.eq_iff_iff, decide_eq_true_iff]
  show decide (x.toModel < y.toModel) = true ↔ _
  rw [decide_eq_true_iff]
  rfl

theorem gt_eq (x y : Float) : decide (x > y) = (order? x y == some .gt) := by
  -- there is only one order on doubles; the greater side comes from swapping
  have hswap : order? y x = (order? x y).map Ordering.swap := compare_swap _ _
  refine (lt_eq y x).trans ?_
  rw [hswap]
  rcases order? x y with _ | _ | _ | _ <;> rfl

/-- Two doubles have no order just if one of them is not a number. -/
theorem order?_eq_none_iff (x y : Float) : order? x y = none ↔ x.isNaN = true ∨ y.isNaN = true :=
  compare_eq_none_iff _ _

/-- A double with an exact value is a number. -/
theorem isNaN_of_rational? {x : Float} {q : ℚ} (h : rational? x = some q) : x.isNaN = false := by
  show x.toModel.unpack.isNaN = false
  rw [rational?] at h
  cases hx : x.toModel.unpack with
  | notANumber =>
    rw [hx] at h
    cases h
  | infinity | zero | finite => rfl

end Decimal

/-! ## Numbers -/

namespace Value

/-- Whether a value is a double that is not a number. -/
def isNaN : Value → Bool
  | .float x => x.isNaN
  | _ => false

/-- Whether two numbers are equal: two integers as integers, otherwise as doubles. -/
def numericallyEqual : Value → Value → Bool
  | .int m, .int n => m.toInt == n.toInt
  | a, b =>
    match a.toFloat?, b.toFloat? with
    | some x, some y => x == y
    | _, _ => false

/-- How the first of two numbers lies to the second: two integers as integers, otherwise as
doubles. -/
def order? : Value → Value → Option Ordering
  | .int m, .int n => some (compare m.toInt n.toInt)
  | a, b =>
    match a.toFloat?, b.toFloat? with
    | some x, some y => Decimal.order? x y
    | _, _ => none

variable {a b : Value}

/-- A comparison asks for one of the three ways in which numbers can be ordered. -/
theorem compareWith_eq {op : Operator} {onInts : Int → Int → Bool} {onFloats : Float → Float → Bool}
    {o : Ordering} (hints : ∀ m n, onInts m n = (compare m n == o))
    (hfloats : ∀ x y, onFloats x y = (Decimal.order? x y == some o))
    (ha : a.isNumber = true) (hb : b.isNumber = true) :
    compareWith op onInts onFloats a b = .ok (.bool (order? a b == some o)) := by
  cases a with
  | int m =>
    cases b with
    | int n => exact congrArg (fun r => Except.ok (bool r)) (hints _ _)
    | float y => exact congrArg (fun r => Except.ok (bool r)) (hfloats _ _)
    | nil | bool | vector | point | object => cases hb
  | float x =>
    cases b with
    | int | float => exact congrArg (fun r => Except.ok (bool r)) (hfloats _ _)
    | nil | bool | vector | point | object => cases hb
  | nil | bool | vector | point | object => cases ha

theorem less_eq (ha : a.isNumber = true) (hb : b.isNumber = true) :
    a.less b = .ok (.bool (order? a b == some .lt)) := by
  refine compareWith_eq (fun m n => ?_) Decimal.lt_eq ha hb
  rw [Bool.eq_iff_iff, decide_eq_true_iff, beq_iff_eq, Int.compare_eq_lt]

theorem greater_eq (ha : a.isNumber = true) (hb : b.isNumber = true) :
    a.greater b = .ok (.bool (order? a b == some .gt)) := by
  refine compareWith_eq (fun m n => ?_) Decimal.gt_eq ha hb
  rw [Bool.eq_iff_iff, decide_eq_true_iff, beq_iff_eq, Int.compare_eq_gt]

/-- Numbers are equal if the order says so. -/
theorem numericallyEqual_eq (a b : Value) : numericallyEqual a b = (order? a b == some .eq) := by
  cases a with
  | int m =>
    cases b with
    | int n =>
      rw [numericallyEqual, order?, Bool.eq_iff_iff, beq_iff_eq, beq_iff_eq, Option.some_inj,
        Int.compare_eq_eq]
    | nil | bool | float | vector | point | object => rfl
  | float x => cases b <;> rfl
  | nil | bool | vector | point | object => rfl

theorem isNaN_ofInt (n : Int64) : (Float.ofInt n.toInt).isNaN = false :=
  Decimal.isNaN_of_rational? (Decimal.rational?_ofInt (Decimal.natAbs_toInt_le n))

/-- Two numbers have no order just if one of them is not a number; an integer always is. -/
theorem order?_eq_none_iff (ha : a.isNumber = true) (hb : b.isNumber = true) :
    order? a b = none ↔ a.isNaN = true ∨ b.isNaN = true := by
  cases a with
  | int m =>
    cases b with
    | int n => simp [order?, isNaN]
    | float y =>
      -- an integer is always a number as a double
      refine (Decimal.order?_eq_none_iff _ _).trans ?_
      rw [isNaN_ofInt]
      rfl
    | nil | bool | vector | point | object => cases hb
  | float x =>
    cases b with
    | int n =>
      refine (Decimal.order?_eq_none_iff _ _).trans ?_
      rw [isNaN_ofInt]
      rfl
    | float y => exact Decimal.order?_eq_none_iff x y
    | nil | bool | vector | point | object => cases hb
  | nil | bool | vector | point | object => cases ha

/-- With what is not a number there is neither order nor equality. -/
theorem unordered (ha : a.isNumber = true) (hb : b.isNumber = true)
    (h : a.isNaN = true ∨ b.isNaN = true) :
    a.less b = .ok (.bool false) ∧ a.greater b = .ok (.bool false) ∧
    a.numericallyEqual b = false := by
  rw [less_eq ha hb, greater_eq ha hb, numericallyEqual_eq, (order?_eq_none_iff ha hb).mpr h]
  exact ⟨rfl, rfl, rfl⟩

end Value

/-! ## Comparisons that allow equality -/

/-- The comparisons that two equal numbers pass. -/
inductive NonStrict where
  | lessEqual
  | greaterEqual
deriving DecidableEq

namespace NonStrict

/-- The strict comparison in the same direction. -/
def strict : NonStrict → Value → Value → Except OperandError Value
  | .lessEqual => Value.less
  | .greaterEqual => Value.greater

/-- The strict comparison in the other direction. -/
def opposite : NonStrict → Value → Value → Except OperandError Value
  | .lessEqual => Value.greater
  | .greaterEqual => Value.less

/-- How two numbers lie to each other if a comparison is meant to fail for them. -/
def excluded : NonStrict → Ordering
  | .lessEqual => .gt
  | .greaterEqual => .lt

variable {a b : Value}

/-- A strict comparison asks for its own order. -/
theorem strict_eq (c : NonStrict) (ha : a.isNumber = true) (hb : b.isNumber = true) :
    c.strict a b = .ok (.bool (a.order? b == some c.excluded.swap)) := by
  cases c with
  | lessEqual => exact Value.less_eq ha hb
  | greaterEqual => exact Value.greater_eq ha hb

/-- The opposite comparison asks for the order that is excluded. -/
theorem opposite_eq (c : NonStrict) (ha : a.isNumber = true) (hb : b.isNumber = true) :
    c.opposite a b = .ok (.bool (a.order? b == some c.excluded)) := by
  cases c with
  | lessEqual => exact Value.greater_eq ha hb
  | greaterEqual => exact Value.less_eq ha hb

/-- The opposite comparison fails for numbers in the right order, for equal ones, and for those
without an order. -/
theorem exists_opposite (c : NonStrict) (ha : a.isNumber = true) (hb : b.isNumber = true) :
    ∃ r : Bool, c.opposite a b = .ok (.bool !r) ∧
      (r = true ↔ c.strict a b = .ok (.bool true) ∨ a.numericallyEqual b = true ∨
        a.isNaN = true ∨ b.isNaN = true) := by
  refine ⟨!(a.order? b == some c.excluded), by rw [c.opposite_eq ha hb, Bool.not_not], ?_⟩
  have hbool (p : Bool) : (Except.ok (.bool p) : Except OperandError Value) = .ok (.bool true) ↔
    p = true :=
    ⟨fun h => Value.bool.inj (Except.ok.inj h), fun h => by rw [h]⟩
  rw [← Value.order?_eq_none_iff ha hb, Value.numericallyEqual_eq, c.strict_eq ha hb, hbool]
  -- of the four ways to lie to each other one is excluded
  cases c <;> rcases a.order? b with _ | _ | _ | _ <;> decide

end NonStrict

end EntityScript
