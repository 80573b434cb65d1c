/-
# The exact value of a double

A finite double is a fraction whose denominator is a power of two.  `rational?` reads it off the
parts of the double: the sign, the mantissa and the exponent.  Its floor and its integer part are
those of this rational number.
-/
import EntityScript.Decimal.Whole
import Mathlib

namespace EntityScript.Decimal

open Float.Model Float.Model.UnpackedFloat

/-- The exact value of an unpacked double, if it is finite. -/
def valueOf : UnpackedFloat → Option ℚ
  | .notANumber | .infinity _ => none
  | .zero _ => some 0
  | .finite sign mantissa exponent _ => some (sign.apply mantissa * 2 ^ exponent)

/-- The exact value of a double, if it is finite. -/
def rational? (x : Float) : Option ℚ :=
  valueOf x.toModel.unpack

/-- A rational number without its fractional part. -/
def towardZero (q : ℚ) : ℤ :=
  if 0 ≤ q then ⌊q⌋ else ⌈q⌉

/-- A power of two with any exponent, as a fraction of natural powers. -/
theorem two_zpow_eq_div (e : ℤ) : (2 : ℚ) ^ e = 2 ^ e.toNat / 2 ^ (-e).toNat := by
  rcases le_total 0 e with he | he
  · rw [(by omega : (-e).toNat = 0), pow_zero, div_one, ← zpow_natCast, Int.toNat_of_nonneg he]
  · rw [(by omega : e.toNat = 0), pow_zero, one_div, ← zpow_natCast,
      Int.toNat_of_nonneg (by omega), zpow_neg,
      inv_inv]

/-- The exact value is the fraction that the reader of doubles gives. -/
theorem rational?_eq (x : Float) : rational? x = (fraction? x).map fun f => (f.1 : ℚ) / f.2 := by
  rw [rational?, fraction?]
  cases x.toModel.unpack with
  | notANumber | infinity => rfl
  | zero => simp [valueOf]
  | finite s m e h =>
    rw [valueOf, two_zpow_eq_div]
    cases s with
    | negative => simp [Sign.apply, Nat.shiftLeft_eq]; ring
    | positive => simp [Sign.apply, Nat.shiftLeft_eq]; ring

/-- The floor of a double is that of its exact value. -/
theorem floor?_eq (x : Float) : floor? x = (rational? x).map Int.floor := by
  rw [floor?, rational?_eq, Option.map_map]
  congr 1
  funext ⟨n, d⟩
  exact (Int.fdiv_eq_ediv_of_nonneg n (Int.natCast_nonneg d)).trans
    (Rat.floor_intCast_div_natCast n d).symm

/-- Dividing toward zero drops the fractional part. -/
theorem towardZero_div (n : ℤ) (d : ℕ) : towardZero (n / d) = n.tdiv d := by
  rcases le_or_gt 0 n with hn | hn
  · have hq : (0 : ℚ) ≤ n / d := by positivity
    rw [towardZero, if_pos hq, Rat.floor_intCast_div_natCast, Int.tdiv_eq_ediv_of_nonneg hn]
  · rcases Nat.eq_zero_or_pos d with rfl | hd
    · simp [towardZero]
    · have hq : ¬ (0 : ℚ) ≤ n / d := by
        rw [not_le]
        exact div_neg_of_neg_of_pos (by exact_mod_cast hn) (by exact_mod_cast hd)
      have hneg : -(n / d : ℚ) = (-n : ℤ) / d := by push_cast; ring
      rw [towardZero, if_neg hq, ← neg_neg ⌈_⌉, ← Int.floor_neg, hneg,
        Rat.floor_intCast_div_natCast,
        ← Int.tdiv_eq_ediv_of_nonneg (by omega), Int.neg_tdiv, neg_neg]

/-- The integer part of a double is that of its exact value. -/
theorem truncate?_eq (x : Float) : truncate? x = (rational? x).map towardZero := by
  rw [truncate?, rational?_eq, Option.map_map]
  congr 1
  funext ⟨n, d⟩
  exact (towardZero_div n d).symm

/-! ## The parts of a double -/

/-- The bit that normal doubles do not store. -/
theorem toNat_implicit (m : BitVec 52) : (1#1 ++ m).toNat = 2 ^ 52 + m.toNat := by
  rw [BitVec.toNat_append, ← Nat.shiftLeft_add_eq_or_of_lt m.isLt]
  rfl

/-- A mantissa has at most fifty-three bits. -/
theorem mantissa_lt {x : Float} {s : Sign} {m : ℕ} {e : ℤ} {h : 0 < m}
    (hx : x.toModel.unpack = .finite s m e h) :
    m < 2 ^ 53 := by
  have hbits := (@unpackMantissa .binary64 x.toModel.toBits.toBitVec).isLt
  change _ < 2 ^ 52 at hbits
  unfold Float.Model.unpack UnpackedFloat.unpack at hx
  dsimp only at hx
  split at hx
  · split at hx <;> cases hx
  · split at hx
    · split at hx
      · cases hx
      · cases hx
        omega
    · cases hx
      rw [toNat_implicit]
      omega

/-- Doubles of large magnitude are multiples of a power of two. -/
theorem exists_multiple {x : Float} {q : ℚ} {k : ℕ} (hx : rational? x = some q)
    (hq : 2 ^ (52 + k) ≤ |q|) :
    ∃ t : ℤ, q = t * 2 ^ k := by
  rw [rational?] at hx
  cases hunpack : x.toModel.unpack with
  | notANumber | infinity =>
    rw [hunpack] at hx
    cases hx
  | zero =>
    rw [hunpack] at hx
    obtain rfl := Option.some.inj hx
    rw [abs_zero] at hq
    exact absurd hq (not_le.mpr (pow_pos two_pos _))
  | finite s m e h =>
    rw [hunpack] at hx
    obtain rfl := Option.some.inj hx
    have hm : (m : ℚ) < 2 ^ 53 := by exact_mod_cast mantissa_lt hunpack
    have habs : |((s.apply m : ℤ) : ℚ) * 2 ^ e| = m * 2 ^ e := by
      rw [abs_mul, abs_of_pos (zpow_pos (two_pos : (0 : ℚ) < 2) e)]
      cases s <;> simp [Sign.apply]
    -- the mantissa is too short for this magnitude unless the exponent is large
    have hlt : (2 : ℚ) ^ ((52 + k : ℕ) : ℤ) < 2 ^ (53 + e) := by
      rw [zpow_natCast, zpow_add₀ (by norm_num)]
      calc (2 : ℚ) ^ (52 + k) ≤ m * 2 ^ e := habs ▸ hq
        _ < 2 ^ (53 : ℤ) * 2 ^ e := mul_lt_mul_of_pos_right hm (zpow_pos two_pos e)
    have hle : (k : ℤ) ≤ e := by
      have := (zpow_lt_zpow_iff_right₀ (by norm_num : (1 : ℚ) < 2)).mp hlt
      omega
    refine ⟨s.apply m * 2 ^ (e - k).toNat, ?_⟩
    have hpow : (2 : ℚ) ^ e = 2 ^ (e - k).toNat * 2 ^ k := by
      rw [← pow_add, ← zpow_natCast]
      congr 1
      omega
    rw [hpow]
    push_cast
    ring

end EntityScript.Decimal
