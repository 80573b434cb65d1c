/-
# The table of arithmetic

The four operators with two operands follow one table.  Two integers give the mathematical result if
sixty-four bits hold it, and an error otherwise (`Exact`); with a double among them two numbers give
a double; vectors and points have the operations of the plane (`Arithmetic.Plane`).  All that is not
in the table is refused, and the error names both kinds (`Arithmetic.apply_other`).
-/
import EntityScript.Host.Builtins
import EntityScript.Value.Arithmetic
import Mathlib.Tactic.Common

namespace EntityScript

/-! ## Integers -/

/-- An outcome is the integer `z` if sixty-four bits hold it, and an overflow otherwise. -/
def Exact {ε : Type} (z : Int) (overflow : ε) (r : Except ε Value) : Prop :=
  (∀ n : Int64, r = .ok (.int n) ↔ (-0x8000000000000000 ≤ z ∧ z ≤ 0x7FFFFFFFFFFFFFFF) ∧
    n.toInt = z) ∧
    (¬ (-0x8000000000000000 ≤ z ∧ z ≤ 0x7FFFFFFFFFFFFFFF) → r = .error overflow)

/-- The integers that fit a word are those of the language. -/
theorem fitsWord_iff {z : Int} : Decimal.fitsWord z = true ↔ -0x8000000000000000 ≤ z ∧
    z ≤ 0x7FFFFFFFFFFFFFFF := by
  rw [Decimal.fitsWord, Decimal.wordBound, Bool.and_eq_true, decide_eq_true_iff, decide_eq_true_iff]
  omega

/-- A result that is checked in this way is exact. -/
theorem exact_of_fitsWord {ε : Type} (z : Int) (overflow : ε) :
    Exact z overflow
      (if Decimal.fitsWord z then .ok (.int (Int64.ofInt z)) else .error overflow) := by
  by_cases hfits : Decimal.fitsWord z = true
  · have hbounds := fitsWord_iff.mp hfits
    have hz : (Int64.ofInt z).toInt = z := Int64.toInt_ofInt_of_le hbounds.1 (by omega)
    rw [if_pos hfits]
    refine ⟨fun n => ⟨fun h => ⟨hbounds, ?_⟩, fun h => ?_⟩, fun h => absurd hbounds h⟩
    · obtain rfl := Value.int.inj (Except.ok.inj h)
      exact hz
    · rw [← h.2, Int64.ofInt_toInt]
  · rw [if_neg hfits]
    refine ⟨fun n => ⟨fun h => ?_, fun h => absurd (fitsWord_iff.mpr h.1) hfits⟩, fun _ => rfl⟩
    cases h

/-- The outcome is an integer or the overflow. -/
theorem Exact.ok_or_overflow {ε : Type} {z : Int} {overflow : ε} {r : Except ε Value}
    (h : Exact z overflow r) :
    (∃ n, r = .ok (.int n)) ∨ r = .error overflow := by
  by_cases hbounds : -0x8000000000000000 ≤ z ∧ z ≤ 0x7FFFFFFFFFFFFFFF
  · have hz : (Int64.ofInt z).toInt = z := Int64.toInt_ofInt_of_le hbounds.1 (by omega)
    exact .inl ⟨_, (h.1 (Int64.ofInt z)).mpr ⟨hbounds, hz⟩⟩
  · exact .inr (h.2 hbounds)

/-! ## Operators -/

/-- The arithmetic operators with two operands. -/
inductive Arithmetic where
  | add
  | subtract
  | multiply
  | divide
deriving DecidableEq

namespace Arithmetic

/-- The operator, as errors name it. -/
def operator : Arithmetic → Operator
  | .add => .add
  | .subtract => .subtract
  | .multiply => .multiply
  | .divide => .divide

/-- What the operator makes of two values. -/
def apply : Arithmetic → Value → Value → Except OperandError Value
  | .add => Value.add
  | .subtract => Value.subtract
  | .multiply => Value.multiply
  | .divide => Value.divide

/-- The mathematical result for two integers, if there is one; a quotient is cut off toward zero. -/
def result? : Arithmetic → Int → Int → Option Int
  | .add, m, n => some (m + n)
  | .subtract, m, n => some (m - n)
  | .multiply, m, n => some (m * n)
  | .divide, m, n => if n = 0 then none else some (m.tdiv n)

/-- The result for two doubles. -/
def onFloats : Arithmetic → Float → Float → Float
  | .add => (· + ·)
  | .subtract => (· - ·)
  | .multiply => (· * ·)
  | .divide => (· / ·)

/-- The operations of the plane: vectors are added and subtracted, points are moved by vectors, and
vectors are scaled by a number on their right. -/
inductive Plane : Arithmetic → Value → Value → Value → Prop where
  | addVectors (v w : Vec) : Plane .add (.vector v) (.vector w) (.vector (v.add w))
  | subtractVectors (v w : Vec) : Plane .subtract (.vector v) (.vector w) (.vector (v.sub w))
  | addToPoint (p : Point) (v : Vec) : Plane .add (.point p) (.vector v) (.point (p.add v))
  | subtractFromPoint (p : Point) (v : Vec) :
    Plane .subtract (.point p) (.vector v) (.point (p.sub v))
  | stretch (v : Vec) {b : Value} {factor : Float} : b.toFloat? = some factor →
      Plane .multiply (.vector v) b (.vector (v.scale factor))
  | shrink (v : Vec) {b : Value} {divisor : Float} : b.toFloat? = some divisor →
    (divisor == Float.ofNat 0) = false →
      Plane .divide (.vector v) b (.vector (v.scale (Float.ofNat 1 / divisor)))

/-- A vector is divided by a number that is zero. -/
def Collapses (op : Arithmetic) (a b : Value) : Prop :=
  op = .divide ∧ a.tag = .vector ∧ ∃ divisor, b.toFloat? = some divisor ∧
    (divisor == Float.ofNat 0) = true

variable {op : Arithmetic} {a b v : Value}

/-- Only a division by zero has no result among the integers. -/
theorem result?_eq_none {m n : Int64} : op.result? m.toInt n.toInt = none ↔
    op = .divide ∧ n = 0 := by
  have hzero : n.toInt = 0 ↔ n = 0 := ⟨fun h => Int64.toInt_inj.mp h, fun h => by rw [h]; rfl⟩
  cases op with
  | add | subtract | multiply => simp [result?]
  | divide => simp [result?, hzero]

/-- An operation on two integers gives the integer that it should, if it fits, and an error if not.
-/
theorem apply_int (op : Arithmetic) (m n : Int64) : op.apply (.int m) (.int n) =
    match op.result? m.toInt n.toInt with
    | some z => exactInt op.operator z
    | none => .error .divisionByZero := by
  cases op with
  | add | subtract | multiply => rfl
  | divide =>
    by_cases hn : n = 0
    · rw [result?_eq_none.mpr ⟨rfl, hn⟩]
      exact if_pos hn
    · have hsome : Arithmetic.divide.result? m.toInt n.toInt = some (m.toInt.tdiv n.toInt) :=
        if_neg fun h => hn (Int64.toInt_inj.mp h)
      rw [hsome]
      exact if_neg hn

/-- Two integers. -/
theorem apply_int_exact {m n : Int64} {z : Int} (h : op.result? m.toInt n.toInt = some z) :
    Exact z (.integerOverflow op.operator) (op.apply (.int m) (.int n)) := by
  rw [apply_int, h]
  exact exact_of_fitsWord z _

/-- Only zero as the divisor is an error of its own. -/
theorem apply_int_divisionByZero {m n : Int64} :
    op.apply (.int m) (.int n) = .error .divisionByZero ↔ op = .divide ∧ n = 0 := by
  rw [← result?_eq_none (m := m)]
  constructor
  · intro h
    cases hz : op.result? m.toInt n.toInt with
    | none => rfl
    | some z =>
      rcases (apply_int_exact hz).ok_or_overflow with ⟨r, hr⟩ | hr
      · rw [hr] at h
        cases h
      · rw [hr] at h
        cases h
  · intro h
    rw [apply_int, h]

/-- Two numbers, not both of them integers. -/
theorem apply_float {x y : Float} (ha : a.toFloat? = some x) (hb : b.toFloat? = some y)
    (hfloat : a.tag = .float ∨ b.tag = .float) : op.apply a b = .ok (.float (op.onFloats x y)) := by
  cases a with
  | float =>
    obtain rfl := Option.some.inj ha
    cases b with
    | int | float =>
      obtain rfl := Option.some.inj hb
      cases op <;> rfl
    | nil | bool | vector | point | object => cases hb
  | int =>
    obtain rfl := Option.some.inj ha
    cases b with
    | float =>
      obtain rfl := Option.some.inj hb
      cases op <;> rfl
    | int => rcases hfloat with h | h <;> cases h
    | nil | bool | vector | point | object => cases hb
  | nil | bool | vector | point | object => cases ha

/-- Points and vectors are added, subtracted, scaled and divided as listed. -/
theorem Plane.apply_eq (h : op.Plane a b v) : op.apply a b = .ok v := by
  cases h with
  | addVectors | subtractVectors | addToPoint | subtractFromPoint => rfl
  | stretch v hb => simp [apply, Value.multiply, hb]
  | shrink v hb hd => simp [apply, Value.divide, hb, hd]

/-- A division of a vector by zero is an error. -/
theorem Collapses.apply_eq (h : op.Collapses a b) : op.apply a b = .error .divisionByZero := by
  obtain ⟨rfl, ha, d, hb, hd⟩ := h
  cases a with
  | vector v => simp [apply, Value.divide, hb, hd]
  | nil | bool | int | float | point | object => cases ha

/-- What is not in the table is refused. -/
theorem apply_other (hnumbers : (a.isNumber && b.isNumber) = false) (hplane : ∀ v, ¬ op.Plane a b v)
    (hzero : ¬ op.Collapses a b) :
    op.apply a b = .error (.binaryMismatch op.operator a.tag b.tag) := by
  cases a with
  | nil | bool | object => cases op <;> cases b <;> rfl
  | int m | float x =>
    cases b with
    | int | float => cases hnumbers
    | nil | bool | vector | point | object => cases op <;> rfl
  | point p =>
    cases op with
    | add =>
      cases b with
      | vector v => exact absurd (.addToPoint p v) (hplane _)
      | nil | bool | int | float | point | object => rfl
    | subtract =>
      cases b with
      | vector v => exact absurd (.subtractFromPoint p v) (hplane _)
      | nil | bool | int | float | point | object => rfl
    | multiply | divide => cases b <;> rfl
  | vector v =>
    cases op with
    | add =>
      cases b with
      | vector w => exact absurd (.addVectors v w) (hplane _)
      | nil | bool | int | float | point | object => rfl
    | subtract =>
      cases b with
      | vector w => exact absurd (.subtractVectors v w) (hplane _)
      | nil | bool | int | float | point | object => rfl
    | multiply =>
      cases b with
      | int | float => exact absurd (.stretch v rfl) (hplane _)
      | nil | bool | vector | point | object => rfl
    | divide =>
      -- a divisor is zero or not
      have hdivisor : ∀ d, b.toFloat? = some d → False := fun d hb => by
        cases hd : d == Float.ofNat 0 with
        | true => exact hzero ⟨rfl, rfl, d, hb, hd⟩
        | false => exact hplane _ (.shrink v hb hd)
      cases b with
      | int | float => exact (hdivisor _ rfl).elim
      | nil | bool | vector | point | object => rfl

/-- Two values that are not both numbers. -/
theorem apply_ok_iff (hnumbers : (a.isNumber && b.isNumber) = false) :
    op.apply a b = .ok v ↔ op.Plane a b v := by
  refine ⟨fun h => ?_, Plane.apply_eq⟩
  by_cases hplane : ∃ w, op.Plane a b w
  · obtain ⟨w, hw⟩ := hplane
    obtain rfl := Except.ok.inj (hw.apply_eq.symm.trans h)
    exact hw
  · by_cases hzero : op.Collapses a b
    · cases hzero.apply_eq.symm.trans h
    · cases (apply_other hnumbers (not_exists.mp hplane) hzero).symm.trans h

theorem apply_divisionByZero_iff (hnumbers : (a.isNumber && b.isNumber) = false) :
    op.apply a b = .error .divisionByZero ↔ op.Collapses a b := by
  refine ⟨fun h => ?_, Collapses.apply_eq⟩
  by_contra hzero
  by_cases hplane : ∃ w, op.Plane a b w
  · obtain ⟨w, hw⟩ := hplane
    cases hw.apply_eq.symm.trans h
  · cases (apply_other hnumbers (not_exists.mp hplane) hzero).symm.trans h

end Arithmetic

/-! ## One operand -/

theorem negate_int (n : Int64) : Exact (-n.toInt) (.integerOverflow .negate)
    (Value.negate (.int n)) :=
  exact_of_fitsWord _ _

theorem abs_int (n : Int64) : Exact n.toInt.natAbs "integer overflow" (Builtin.abs [.int n]) :=
  exact_of_fitsWord _ _

/-- The host finds the native for the magnitude under its name. -/
theorem abs_mem_builtins :
    Host.builtins.natives["abs"]? = some ⟨"abs", some 1, 0, Builtin.abs⟩ := by
  rfl

end EntityScript
