/-
# Conversions to integers

The natives `floor` and `int` give the integer part of a number, rounded down or toward zero.  They
are exact with two exceptions (`Conversion.Misses`).  Both take the double `2 ^ 63`, one above the
greatest integer, for the greatest integer.  And `floor` takes an integer as a double first: for an
integer that is not a double itself it gives the nearest one.
-/
import EntityScript.Proofs.Decimal.Nearest
import EntityScript.Proofs.Value.Arithmetic

namespace EntityScript

/-- The exact value of a number, if it is finite. -/
def Value.rational? : Value → Option ℚ
  | .int n => some n.toInt
  | .float x => Decimal.rational? x
  | _ => none

/-- The outcome for a number is its exact value, rounded, if sixty-four bits hold this integer.
Otherwise it is an error, as it is for all that is not a finite number. -/
def Converts (round : ℚ → ℤ) (v : Value) (r : Except String Value) : Prop :=
  match v.rational? with
  | some q => ∃ message, Exact (round q) message r
  | none => ∃ message, r = .error message

/-! ## Fitting an integer -/

namespace Builtin

variable {x : Float} {z : ℤ} {m n : Int64}

/-- What lies outside the integers is refused, with the double in the message. -/
theorem toInt_eq_error (hz : ¬ (-2 ^ 63 ≤ z ∧ z ≤ 2 ^ 63)) :
    toInt (some z) x = .error (Decimal.render x ++ " does not fit in an int") :=
  if_neg hz

/-- What lies within them is taken, and so is `2 ^ 63`, for the greatest integer. -/
theorem toInt_eq_ok_iff : toInt (some z) x = .ok (.int m) ↔
    (-2 ^ 63 ≤ z ∧ z ≤ 2 ^ 63) ∧ m.toInt = min z (2 ^ 63 - 1) := by
  by_cases hz : -2 ^ 63 ≤ z ∧ z ≤ 2 ^ 63
  · have hword : (Int64.ofInt (min z (2 ^ 63 - 1))).toInt = min z (2 ^ 63 - 1) :=
      Int64.toInt_ofInt_of_le (by omega) (by omega)
    have hok : toInt (some z) x = .ok (.int (Int64.ofInt (min z (2 ^ 63 - 1)))) := if_pos hz
    rw [hok]
    refine ⟨fun h => ⟨hz, ?_⟩, fun h => by rw [← h.2, Int64.ofInt_toInt]⟩
    rw [← Value.int.inj (Except.ok.inj h), hword]
  · rw [toInt_eq_error hz]
    refine ⟨fun h => ?_, fun h => absurd h.1 hz⟩
    cases h

/-- Only the integer above the greatest one is not fitted as it should be. -/
theorem toInt_exact_iff (z : ℤ) (x : Float) :
    (∃ message, Exact z message (toInt (some z) x)) ↔ z ≠ 2 ^ 63 := by
  refine ⟨?_, fun hz => ⟨_, fun m => ?_, fun hword => toInt_eq_error (by omega)⟩⟩
  · rintro ⟨message, -, hbound⟩ rfl
    have hok : toInt (some (2 ^ 63)) x = .ok (.int Int64.maxValue) :=
      toInt_eq_ok_iff.mpr ⟨by decide, by rfl⟩
    cases hok.symm.trans (hbound (by decide))
  · rw [toInt_eq_ok_iff]
    omega

/-- An integer that stands for `n` is `n`. -/
theorem ok_exact_iff : (∃ message : String, Exact n.toInt message (.ok (.int m))) ↔ m = n := by
  constructor
  · rintro ⟨message, h, -⟩
    exact Int64.toInt_inj.mp ((h m).mp rfl).2
  · rintro rfl
    have hlow := Int64.le_toInt m
    have hhigh := Int64.toInt_lt m
    refine ⟨"", fun k => ⟨fun h => ?_, fun h => by rw [Int64.toInt_inj.mp h.2]⟩, fun h => by omega⟩
    obtain rfl := Value.int.inj (Except.ok.inj h)
    exact ⟨by omega, rfl⟩

end Builtin

/-! ## The two conversions -/

/-- The natives that convert numbers to integers. -/
inductive Conversion where
  | floor
  | int
deriving DecidableEq

namespace Conversion

def name : Conversion → String
  | .floor => "floor"
  | .int => "int"

/-- What the native makes of its arguments. -/
def call : Conversion → List Value → Except String Value
  | .floor => Builtin.floor
  | .int => Builtin.int

/-- The integer that the native is meant to give for an exact value. -/
def round : Conversion → ℚ → ℤ
  | .floor => Int.floor
  | .int => Decimal.towardZero

/-- The exact value that the native rounds.  All numbers are taken as doubles, but `int` has a case
of its own for integers. -/
def seen : Conversion → Value → Option ℚ
  | .int, .int n => some n.toInt
  | _, v => v.toFloat?.bind Decimal.rational?

/-- Where a conversion is not exact: a double just above the integers, and integers that are taken
as doubles. -/
inductive Misses : Conversion → Value → Prop where
  | bound (c : Conversion) {x : Float} : Decimal.rational? x = some (2 ^ 63) → Misses c (.float x)
  | widened {n : Int64} : n ≠ Int64.maxValue → (∀ x, Decimal.rational? x ≠ some (n.toInt : ℚ)) →
    Misses .floor (.int n)

variable {c : Conversion} {v : Value} {x : Float} {q : ℚ}

/-- The host finds the natives under their names. -/
theorem mem_builtins (c : Conversion) :
    Host.builtins.natives[c.name]? = some ⟨c.name, some 1, 0, c.call⟩ := by
  cases c <;> rfl

theorem round_intCast (c : Conversion) (z : ℤ) : c.round z = z := by
  cases c with
  | floor => exact Int.floor_intCast z
  | int => rw [round, Decimal.towardZero, Int.floor_intCast, Int.ceil_intCast, ite_self]

/-- Rounding changes a number by less than one. -/
theorem abs_sub_round_lt (c : Conversion) (q : ℚ) : |q - c.round q| < 1 := by
  have hfloor : |q - ⌊q⌋| < 1 := by
    rw [Int.self_sub_floor, abs_of_nonneg (Int.fract_nonneg q)]
    exact Int.fract_lt_one q
  cases c with
  | floor => exact hfloor
  | int =>
    rw [round, Decimal.towardZero]
    split
    · exact hfloor
    · have hceil := Int.le_ceil q
      rw [abs_sub_comm, abs_of_nonneg (sub_nonneg.mpr hceil)]
      linarith [Int.ceil_lt_add_one q]

/-- Where doubles reach the bound they have no fractional part any more. -/
theorem round_eq_bound (hx : Decimal.rational? x = some q) : c.round q = 2 ^ 63 ↔ q = 2 ^ 63 := by
  have hcast : ((2 ^ 63 : ℤ) : ℚ) = 2 ^ 63 := by norm_num
  constructor
  · intro hround
    have hnear := abs_sub_round_lt c q
    rw [hround, hcast, abs_lt] at hnear
    have hlarge : 2 ^ (52 + 0) ≤ |q| := by
      have habs := le_abs_self q
      norm_num at hnear ⊢
      linarith
    obtain ⟨t, ht⟩ := Decimal.exists_multiple hx hlarge
    rw [pow_zero, mul_one] at ht
    rw [ht, round_intCast] at hround
    rw [ht, hround, hcast]
  · rintro rfl
    rw [← hcast, round_intCast]

/-- A double is converted by way of its exact value. -/
theorem call_float (c : Conversion) (x : Float) :
    c.call [.float x] = Builtin.toInt ((Decimal.rational? x).map c.round) x := by
  cases c with
  | floor =>
    rw [round, ← Decimal.floor?_eq]
    rfl
  | int =>
    rw [round, ← Decimal.truncate?_eq]
    rfl

/-! ### Integers as doubles -/

theorem seen_floor_int (n : Int64) : floor.seen (.int n) = some (Decimal.nearestInt n.toInt : ℚ) :=
  Decimal.rational?_ofInt (Decimal.natAbs_toInt_le n)

/-- The bounds are doubles, so that rounding to the nearest double stays between them. -/
theorem nearestInt_mem (n : Int64) :
    -2 ^ 63 ≤ Decimal.nearestInt n.toInt ∧ Decimal.nearestInt n.toInt ≤ 2 ^ 63 := by
  have hlow := Int64.le_toInt n
  have hhigh := Int64.toInt_lt n
  have hnearest {z : ℤ} {x : Float} (hx : Decimal.rational? x = some (z : ℚ)) :
      |n.toInt - Decimal.nearestInt n.toInt| ≤ |n.toInt - z| := by
    exact_mod_cast Decimal.nearestInt_nearest n.toInt hx
  have habove := abs_le.mp
    (hnearest (Decimal.rational?_ofInt (by decide : (2 ^ 63 : ℤ).natAbs ≤ 2 ^ 63)))
  have hbelow := abs_le.mp
    (hnearest (Decimal.rational?_ofInt (by decide : (-2 ^ 63 : ℤ).natAbs ≤ 2 ^ 63)))
  have heq : Decimal.nearestInt (2 ^ 63) = 2 ^ 63 := by decide
  have heq' : Decimal.nearestInt (-2 ^ 63) = -2 ^ 63 := by decide
  rw [heq] at habove
  rw [heq'] at hbelow
  have hright : |n.toInt - 2 ^ 63| = 2 ^ 63 - n.toInt := by
    rw [abs_sub_comm]
    exact abs_of_nonneg (by omega)
  have hleft : |n.toInt - -2 ^ 63| = n.toInt + 2 ^ 63 := by
    rw [sub_neg_eq_add]
    exact abs_of_nonneg (by omega)
  omega

/-- An integer is its own nearest double just if it is a double. -/
theorem nearestInt_eq_iff (n : Int64) :
    Decimal.nearestInt n.toInt = n.toInt ↔ ∃ x, Decimal.rational? x = some (n.toInt : ℚ) := by
  constructor
  · intro h
    have hx := Decimal.rational?_ofInt (Decimal.natAbs_toInt_le n)
    rw [h] at hx
    exact ⟨_, hx⟩
  · rintro ⟨x, hx⟩
    have hnearest := Decimal.nearestInt_nearest n.toInt hx
    rw [sub_self, abs_zero, abs_nonpos_iff, sub_eq_zero] at hnearest
    exact_mod_cast hnearest.symm

/-- Integers of up to fifty-three bits are not missed. -/
theorem not_misses_int {n : Int64} (hn : n.toInt.natAbs < 2 ^ 53) : ¬ c.Misses (.int n) := by
  rintro (_ | ⟨-, hdouble⟩)
  obtain ⟨x, hx⟩ := (nearestInt_eq_iff n).mp (Decimal.nearestInt_of_lt hn)
  exact hdouble x hx

/-! ### All values -/

/-- A call with one argument that is seen as the exact value `q`. -/
theorem call_of_seen (h : c.seen v = some q) :
    ∃ x, c.call [v] = Builtin.toInt (some (c.round q)) x := by
  cases v with
  | float x =>
    have hx : Decimal.rational? x = some q := by
      cases c <;> exact h
    exact ⟨x, by rw [call_float, hx, Option.map_some]⟩
  | int n =>
    cases c with
    | floor =>
      have hx : Decimal.rational? (Float.ofInt n.toInt) = some q := h
      refine ⟨Float.ofInt n.toInt, ?_⟩
      calc floor.call [.int n] = floor.call [.float (Float.ofInt n.toInt)] := rfl
        _ = Builtin.toInt (some (floor.round q)) _ := by rw [call_float, hx, Option.map_some]
    | int =>
      -- an integer that stays as it is has been fitted, too
      obtain rfl := Option.some.inj h
      have hlow := Int64.le_toInt n
      have hhigh := Int64.toInt_lt n
      refine ⟨Float.ofInt n.toInt, ?_⟩
      rw [round_intCast]
      exact (Builtin.toInt_eq_ok_iff.mpr ⟨by omega, by omega⟩).symm
  | nil | bool | vector | point | object => cases c <;> cases h

/-- What is not seen as a number is refused. -/
theorem call_of_not_seen (h : c.seen v = none) : ∃ message, c.call [v] = .error message := by
  cases v with
  | float x =>
    have hx : Decimal.rational? x = none := by
      cases c <;> exact h
    exact ⟨_, by rw [call_float, hx]; rfl⟩
  | int n =>
    cases c with
    | floor => cases (seen_floor_int n).symm.trans h
    | int => cases h
  | nil | bool | vector | point | object => cases c <;> exact ⟨_, rfl⟩

/-- A double is converted exactly unless it is `2 ^ 63`. -/
theorem converts_float_iff (c : Conversion) (x : Float) :
    Converts c.round (.float x) (c.call [.float x]) ↔ Decimal.rational? x ≠ some (2 ^ 63) := by
  rw [Converts, Value.rational?, call_float]
  cases hx : Decimal.rational? x with
  | none => simp [Builtin.toInt]
  | some q =>
    rw [ne_eq, Option.some_inj, ← round_eq_bound hx]
    exact Builtin.toInt_exact_iff _ _

/-- The native `int` leaves integers as they are. -/
theorem converts_int (n : Int64) :
    Converts Conversion.int.round (.int n) (Conversion.int.call [.int n]) := by
  rw [Converts, Value.rational?]
  dsimp only
  rw [round_intCast]
  exact Builtin.ok_exact_iff.mpr rfl

/-- The native `floor` leaves an integer as it is if it is a double, or the greatest one. -/
theorem converts_floor_int_iff (n : Int64) :
    Converts floor.round (.int n) (floor.call [.int n]) ↔
      n = Int64.maxValue ∨ ∃ x, Decimal.rational? x = some (n.toInt : ℚ) := by
  obtain ⟨x, hcall⟩ := call_of_seen (seen_floor_int n)
  rw [round_intCast] at hcall
  obtain ⟨m, hm⟩ : ∃ m : Int64, m.toInt = min (Decimal.nearestInt n.toInt) (2 ^ 63 - 1) :=
    ⟨Int64.ofInt _, Int64.toInt_ofInt_of_le (by have := nearestInt_mem n; omega) (by omega)⟩
  have hok := hcall.trans (Builtin.toInt_eq_ok_iff.mpr ⟨nearestInt_mem n, hm⟩)
  rw [Converts, Value.rational?]
  dsimp only
  rw [round_intCast, hok, Builtin.ok_exact_iff, ← nearestInt_eq_iff, ← Int64.toInt_inj, hm]
  have hhigh := Int64.toInt_lt n
  constructor
  · intro h
    -- the greatest integer is not a double, but the one above it counts as the greatest
    rcases Decidable.em (n = Int64.maxValue) with hmax | hmax
    · exact .inl hmax
    · have hne : n.toInt ≠ 2 ^ 63 - 1 := fun heq => hmax (Int64.toInt_inj.mp heq)
      exact .inr (by omega)
  · rintro (rfl | h)
    · decide
    · omega

/-- A conversion is exact where it is not said to miss. -/
theorem converts_iff (c : Conversion) (v : Value) : Converts c.round v (c.call [v]) ↔
    ¬ c.Misses v := by
  cases v with
  | float x =>
    rw [converts_float_iff]
    refine not_congr ⟨.bound c, fun h => ?_⟩
    cases h with
    | bound _ hx => exact hx
  | int n =>
    cases c with
    | floor =>
      rw [converts_floor_int_iff]
      constructor
      · rintro h (_ | ⟨hmax, hdouble⟩)
        rcases h with h | ⟨x, hx⟩
        · exact hmax h
        · exact hdouble x hx
      · intro h
        by_contra hnot
        rw [not_or, not_exists] at hnot
        exact h (.widened hnot.1 hnot.2)
    | int =>
      refine ⟨fun _ h => ?_, fun _ => converts_int n⟩
      cases h
  | nil | bool | vector | point | object =>
    refine ⟨fun _ h => ?_, fun _ => call_of_not_seen (by cases c <;> rfl)⟩
    cases h

/-- What a conversion gives, told by the number that it sees. -/
theorem call_eq_ok_iff (c : Conversion) (v : Value) (m : Int64) :
    c.call [v] = .ok (.int m) ↔ ∃ q, c.seen v = some q ∧
      (-2 ^ 63 ≤ c.round q ∧ c.round q ≤ 2 ^ 63) ∧ m.toInt = min (c.round q) (2 ^ 63 - 1) := by
  cases hseen : c.seen v with
  | none =>
    obtain ⟨message, hcall⟩ := call_of_not_seen hseen
    rw [hcall]
    simp
  | some q =>
    obtain ⟨x, hcall⟩ := call_of_seen hseen
    rw [hcall, Builtin.toInt_eq_ok_iff]
    simp

theorem call_ok_or_error (c : Conversion) (v : Value) :
    (∃ m, c.call [v] = .ok (.int m)) ∨ ∃ message, c.call [v] = .error message := by
  cases h : c.call [v] with
  | error message => exact .inr ⟨message, rfl⟩
  | ok w =>
    cases hseen : c.seen v with
    | none =>
      obtain ⟨message, hcall⟩ := call_of_not_seen hseen
      cases h.symm.trans hcall
    | some q =>
      obtain ⟨x, hcall⟩ := call_of_seen hseen
      rw [h, Builtin.toInt] at hcall
      split at hcall
      · exact .inl ⟨_, hcall⟩
      · cases hcall

/-- An integer is seen as one of the doubles nearest to it, or as it is. -/
theorem seen_int (c : Conversion) (n : Int64) : ∃ z : ℤ, c.seen (.int n) = some (z : ℚ) ∧
    ∀ x q, Decimal.rational? x = some q → |(n.toInt : ℚ) - z| ≤ |n.toInt - q| := by
  cases c with
  | floor => exact ⟨_, seen_floor_int n, fun x q hx => Decimal.nearestInt_nearest n.toInt hx⟩
  | int =>
    refine ⟨n.toInt, rfl, fun x q hx => ?_⟩
    rw [sub_self, abs_zero]
    exact abs_nonneg _

end Conversion

/-- **The conversions to integers.**  `floor` and `int` are exact, or fail, for all values that they
do not miss.  In any case the outcome is what the native sees, rounded, and the integer above the
greatest counts as the greatest.  What is seen of an integer is itself or, where `floor` takes it as
a double, a double to which none is nearer. -/
theorem conversions_exact_iff (c : Conversion) (v : Value) :
    Host.builtins.natives[c.name]? = some ⟨c.name, some 1, 0, c.call⟩ ∧
      (Converts c.round v (c.call [v]) ↔ ¬ c.Misses v) ∧
      (∀ m : Int64, c.call [v] = .ok (.int m) ↔ ∃ q, c.seen v = some q ∧
        (-2 ^ 63 ≤ c.round q ∧ c.round q ≤ 2 ^ 63) ∧ m.toInt = min (c.round q) (2 ^ 63 - 1)) ∧
      ((∃ m, c.call [v] = .ok (.int m)) ∨ ∃ message, c.call [v] = .error message) ∧
      (∀ n, v = .int n → ∃ z : ℤ, c.seen v = some (z : ℚ) ∧
        ∀ x q, Decimal.rational? x = some q → |(n.toInt : ℚ) - z| ≤ |n.toInt - q|) := by
  refine ⟨c.mem_builtins, c.converts_iff v, c.call_eq_ok_iff v, c.call_ok_or_error v, ?_⟩
  rintro n rfl
  exact c.seen_int n

theorem conversions_exact_iff_five :
    Converts Int.floor (.int 5) (Builtin.floor [.int 5]) ∧
      ∃ z : ℤ, Conversion.floor.seen (.int 5) = some (z : ℚ) ∧
        ∀ x q, Decimal.rational? x = some q → |(Int64.toInt 5 : ℚ) - z| ≤ |Int64.toInt 5 - q| :=
  have hfive := conversions_exact_iff .floor (.int 5)
  ⟨hfive.2.1.mpr (Conversion.not_misses_int (by decide)), hfive.2.2.2.2 5 rfl⟩

/-- An integer that is not a double, and the double above the greatest integer. -/
theorem conversions_inexact :
    Builtin.floor [.int 9007199254740993] = .ok (.int 9007199254740992) ∧
      ¬ Converts Int.floor (.int 9007199254740993) (Builtin.floor [.int 9007199254740993]) ∧
      Decimal.rational? (Float.ofNat (2 ^ 63)) = some (2 ^ 63) ∧
      ∀ c : Conversion, c.call [.float (Float.ofNat (2 ^ 63))] = .ok (.int Int64.maxValue) ∧
        ¬ Converts c.round (.float (Float.ofNat (2 ^ 63)))
        (c.call [.float (Float.ofNat (2 ^ 63))]) := by
  have hfloor : Builtin.floor [.int 9007199254740993] = .ok (.int 9007199254740992) := by rfl
  have hbound : Decimal.rational? (Float.ofNat (2 ^ 63)) = some (2 ^ 63) := by
    have hnearest : Decimal.nearestInt (2 ^ 63) = 2 ^ 63 := by decide
    have hx := Decimal.rational?_ofInt (by decide : (2 ^ 63 : ℤ).natAbs ≤ 2 ^ 63)
    rw [hnearest] at hx
    exact_mod_cast hx
  -- neither outcome is the rounded value, and neither is an error
  refine ⟨hfloor, ?_, hbound, fun c => ⟨?_, fun h => (c.converts_float_iff _).mp h hbound⟩⟩
  · rw [hfloor]
    rintro ⟨message, h, -⟩
    have heq := ((h _).mp rfl).2
    rw [Int.floor_intCast] at heq
    exact absurd heq (by decide)
  · cases c <;> rfl

end EntityScript
