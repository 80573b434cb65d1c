/-
# Operators give plain values

No operator that looks at values alone can make an object: its results are numbers, truth values,
vectors and points.  Nor does it see which object an operand is (`Value.blank`).
-/
import EntityScript.Value.Arithmetic
import Mathlib.Tactic.Common

namespace EntityScript

/-- If there is a result, it is not an object. -/
def PlainResult {ε : Type} (r : Except ε Value) : Prop :=
  ∀ v, r = .ok v → v.isObject = false

theorem plainResult_ok {ε : Type} {v : Value} (h : v.isObject = false) :
    PlainResult (.ok v : Except ε Value) := by
  rintro w hw
  obtain rfl := Except.ok.inj hw
  exact h

/-- An error is no result. -/
theorem plainResult_error {ε : Type} (e : ε) : PlainResult (.error e) := by
  intro v hv
  cases hv

/-- A result that is checked for size is an integer. -/
theorem plainResult_exactInt (op : Operator) (n : Int) : PlainResult (exactInt op n) := by
  unfold exactInt
  split
  · exact plainResult_ok rfl
  · exact plainResult_error _

/-- An operation on numbers gives a number. -/
theorem plainResult_numeric (op : Operator) (f : Int → Int → Int) (g : Float → Float → Float)
    (a b : Value) : PlainResult (numeric op f g a b) := by
  unfold numeric
  split
  · exact plainResult_exactInt _ _
  · split
    · exact plainResult_ok rfl
    · exact plainResult_error _

/-- A comparison gives a boolean. -/
theorem plainResult_compareWith (op : Operator) (f : Int → Int → Bool) (g : Float → Float → Bool)
    (a b : Value) : PlainResult (compareWith op f g a b) := by
  unfold compareWith
  split
  · exact plainResult_ok rfl
  · split
    · exact plainResult_ok rfl
    · exact plainResult_error _

namespace Value

/-- A sum is a number, a point or a vector: texts are joined on the heap. -/
theorem plainResult_add (a b : Value) : PlainResult (a.add b) := by
  unfold add
  split
  · exact plainResult_ok rfl
  · exact plainResult_ok rfl
  · exact plainResult_numeric _ _ _ _ _

/-- A difference is a number, a point or a vector. -/
theorem plainResult_subtract (a b : Value) : PlainResult (a.subtract b) := by
  unfold subtract
  split
  · exact plainResult_ok rfl
  · exact plainResult_ok rfl
  · exact plainResult_numeric _ _ _ _ _

theorem plainResult_multiply (a b : Value) : PlainResult (a.multiply b) := by
  unfold multiply
  split
  · exact plainResult_ok rfl
  · exact plainResult_numeric _ _ _ _ _

/-- A quotient is a number or a vector. -/
theorem plainResult_divide (a b : Value) : PlainResult (a.divide b) := by
  unfold divide
  split
  · split
    · split
      · exact plainResult_error _
      · exact plainResult_ok rfl
    · exact plainResult_error _
  · split
    · exact plainResult_error _
    · exact plainResult_exactInt _ _
  · exact plainResult_numeric _ _ _ _ _

/-- What is negated is a number or a vector. -/
theorem plainResult_negate (a : Value) : PlainResult a.negate := by
  unfold negate
  split
  · exact plainResult_exactInt _ _
  · exact plainResult_ok rfl
  · exact plainResult_ok rfl
  · exact plainResult_error _

theorem plainResult_not (a : Value) : PlainResult a.not := by
  unfold Value.not
  split
  · exact plainResult_ok rfl
  · exact plainResult_error _

/-- A member of a vector or a point is a number. -/
theorem plainResult_member (a : Value) (mem : Member) : PlainResult (a.member mem) := by
  unfold member
  split
  all_goals first | exact plainResult_ok rfl | exact plainResult_error _

/-- A value whose member has been set is a point or a vector. -/
theorem plain_of_setMember {a assigned new : Value} {mem : Member} {stored : Float}
    (h : a.setMember mem assigned = .ok (new, stored)) : new.isObject = false := by
  unfold setMember at h
  split at h
  · cases h
  · split at h
    all_goals
      cases h
      try rfl

end Value

/-! ## Operands -/

namespace Value

/-- A value with the same object in place of every object. -/
def blank : Value → Value
  | .object _ => .object ⟨0⟩
  | v => v

variable (a b : Value)

/-- Which objects the operands are does not matter to a sum of values. -/
@[simp] theorem add_blank : a.blank.add b.blank = a.add b := by
  cases a <;> cases b <;> rfl

@[simp] theorem subtract_blank : a.blank.subtract b.blank = a.subtract b := by
  cases a <;> cases b <;> rfl

@[simp] theorem multiply_blank : a.blank.multiply b.blank = a.multiply b := by
  cases a <;> cases b <;> rfl

@[simp] theorem divide_blank : a.blank.divide b.blank = a.divide b := by
  cases a <;> cases b <;> rfl

@[simp] theorem less_blank : a.blank.less b.blank = a.less b := by
  cases a <;> cases b <;> rfl

@[simp] theorem greater_blank : a.blank.greater b.blank = a.greater b := by
  cases a <;> cases b <;> rfl

@[simp] theorem negate_blank : a.blank.negate = a.negate := by
  cases a <;> rfl

@[simp] theorem not_blank : a.blank.not = a.not := by
  cases a <;> rfl

@[simp] theorem member_blank (m : Member) : a.blank.member m = a.member m := by
  cases a <;> cases m <;> rfl

/-- Nor does it matter to setting a member. -/
@[simp] theorem setMember_blank (m : Member) : a.blank.setMember m b.blank = a.setMember m b := by
  cases a <;> cases b <;> cases m <;> rfl

end Value

end EntityScript
