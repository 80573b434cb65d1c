/-
# The double nearest to an integer

An integer is made a double by rounding: of the doubles whose neighbours are as far apart as the
size of the integer demands, the nearest is taken, and of two that are equally near the one with an
even mantissa.  Rounding shifts the mantissa to the right and remembers only two bits of what is
lost; that this is division to the nearest integer is shown by induction on the number of shifts
(`roundedMantissa_shifted`).  The rest follows the parts of a normal double through packing.
-/
import EntityScript.Proofs.Decimal.Exact

namespace EntityScript.Decimal

open Float.Model Float.Model.UnpackedFloat

/-! ## Packing -/

/-- The mantissa and the exponent of a normal double. -/
structure Normal (m : ℕ) (e : ℤ) : Prop where
  le_mantissa : 2 ^ 52 ≤ m
  mantissa_lt : m < 2 ^ 53
  le_exponent : -1074 ≤ e
  exponent_le : e ≤ 971

theorem Normal.log2_eq {m : ℕ} {e : ℤ} (h : Normal m e) : m.log2 = 52 :=
  (Nat.log2_eq_iff (by have := h.le_mantissa; omega)).mpr ⟨h.le_mantissa, h.mantissa_lt⟩

/-- Packing a normal double and unpacking it again gives the same parts. -/
theorem unpack_pack {s : Sign} {m : ℕ} {e : ℤ} (hpos : 0 < m) (h : Normal m e) :
    (Float.Model.pack (.finite s m e hpos)).unpack = .finite s m e hpos := by
  obtain ⟨hm, hm', he, he'⟩ := h
  -- the exponent is stored with an offset, and the top bit of the mantissa is not stored
  let b := (e + 1075).toNat
  have hb : (b : ℤ) = e + 1075 := Int.toNat_of_nonneg (by omega)
  have hexp : (BitVec.ofNat 11 b).toNat = b := by rw [BitVec.toNat_ofNat]; omega
  have hbits {c : BitVec 11} (heq : BitVec.ofNat 11 b = c) : b = c.toNat := by rw [← heq, hexp]
  have hone : BitVec.ofNat 11 b ≠ -1#11 := fun heq => by
    have hmax : b = 2047 := hbits heq
    omega
  have hzero : BitVec.ofNat 11 b ≠ 0#11 := fun heq => by
    have hmin : b = 0 := hbits heq
    omega
  have hmant : (1#1 ++ BitVec.ofNat 52 m).toNat = m := by
    rw [toNat_implicit, BitVec.toNat_ofNat]
    omega
  have hpack : UnpackedFloat.pack .binary64 (.finite s m e hpos) =
      packComponents .binary64 s (BitVec.ofNat 11 b) (BitVec.ofNat 52 m) := by
    have hbiased :
        (e + (Format.binary64.exponentBias : ℤ) +
          (Format.binary64.mantissaBitsWithoutImplicit : ℤ)).toNat = b := by
      show (e + 1023 + 52).toNat = (e + 1075).toNat
      omega
    rw [UnpackedFloat.pack]
    dsimp only
    rw [hbiased, if_neg (by show ¬ 2 ^ 11 ≤ b + 1; omega),
      if_pos (by show m.log2 + 1 = 53; rw [Normal.log2_eq ⟨hm, hm', he, he'⟩])]
  show UnpackedFloat.unpack .binary64 (UnpackedFloat.pack .binary64 _) = _
  rw [hpack, UnpackedFloat.unpack]
  simp only [unpackMantissa_packComponents, unpackExponent_packComponents,
    unpackSign_packComponents, Sign.ofBitVec_toBitVec, hone, hzero, if_false, hmant, hexp]
  congr 1
  show (b : ℤ) - (1023 + 52) = e
  omega

/-! ## Division to the nearest integer -/

/-- The integer nearest to `n / unit`; of two that are equally near, the even one. -/
def nearestQuotient (n unit : ℕ) : ℕ :=
  match compare (2 * (n % unit)) unit with
  | .lt => n / unit
  | .eq => n / unit + n / unit % 2
  | .gt => n / unit + 1
theorem le_nearestQuotient (n unit : ℕ) : n / unit ≤ nearestQuotient n unit := by
  rw [nearestQuotient]
  split <;> omega

theorem nearestQuotient_le (n unit : ℕ) : nearestQuotient n unit ≤ n / unit + 1 := by
  rw [nearestQuotient]
  split <;> omega

/-- A multiple is not rounded. -/
theorem nearestQuotient_multiple {unit : ℕ} (hunit : 0 < unit) (t : ℕ) :
    nearestQuotient (t * unit) unit = t := by
  rw [nearestQuotient, Nat.mul_mod_left, Nat.mul_div_left t hunit, Nat.compare_eq_lt.mpr (by omega)]

/-- Rounding a quotient depends on the fraction alone, not on how it is written. -/
theorem nearestQuotient_mul {n unit c : ℕ} (hc : 0 < c) :
    nearestQuotient (n * c) (unit * c) = nearestQuotient n unit := by
  have hcompare : compare (2 * (n % unit * c)) (unit * c) = compare (2 * (n % unit)) unit := by
    rw [← Nat.mul_assoc]
    rcases lt_trichotomy (2 * (n % unit)) unit with h | h | h
    · rw [Nat.compare_eq_lt.mpr h, Nat.compare_eq_lt.mpr (Nat.mul_lt_mul_of_pos_right h hc)]
    · rw [h]
      simp
    · rw [Nat.compare_eq_gt.mpr h, Nat.compare_eq_gt.mpr (Nat.mul_lt_mul_of_pos_right h hc)]
  rw [nearestQuotient, nearestQuotient, Nat.mul_mod_mul_right,
    Nat.mul_div_mul_right _ _ hc, hcompare]

/-- No multiple of `unit` is nearer to `n`. -/
theorem nearestQuotient_nearest {n unit : ℕ} (hunit : 0 < unit) (t : ℤ) :
    |(n : ℤ) - nearestQuotient n unit * unit| ≤ |(n : ℤ) - t * unit| := by
  have hn : (n : ℤ) = (n / unit : ℕ) * unit + (n % unit : ℕ) := by
    rw [mul_comm]
    exact_mod_cast (Nat.div_add_mod n unit).symm
  have hlt : ((n % unit : ℕ) : ℤ) < unit := by exact_mod_cast Nat.mod_lt n hunit
  -- the neighbours are the multiples below and above
  have hbelow : |(n : ℤ) - (n / unit : ℕ) * unit| = (n % unit : ℕ) := by
    rw [hn, add_sub_cancel_left, abs_of_nonneg (Int.natCast_nonneg _)]
  have habove : |(n : ℤ) - ((n / unit : ℕ) + 1) * unit| = unit - (n % unit : ℕ) := by
    rw [abs_sub_comm, abs_of_nonneg (by linarith)]
    linarith
  have hmin : |(n : ℤ) - nearestQuotient n unit * unit| ≤ min ((n % unit : ℕ) : ℤ)
    (unit - (n % unit : ℕ)) := by
    rw [nearestQuotient]
    split
    · next h =>
      have := Nat.compare_eq_lt.mp h
      rw [hbelow]
      omega
    · next h =>
      have := Nat.compare_eq_eq.mp h
      rcases Nat.mod_two_eq_zero_or_one (n / unit) with hmod | hmod
      · rw [hmod, Nat.add_zero, hbelow]
        omega
      · rw [hmod, Nat.cast_add, Nat.cast_one, habove]
        omega
    · next h =>
      have := Nat.compare_eq_gt.mp h
      rw [Nat.cast_add, Nat.cast_one, habove]
      omega
  refine hmin.trans ?_
  rcases le_or_gt t (n / unit : ℕ) with ht | ht
  · have hmul := mul_le_mul_of_nonneg_right ht (Int.natCast_nonneg unit)
    have habs := le_abs_self ((n : ℤ) - t * unit)
    exact (min_le_left _ _).trans (by linarith)
  · have hmul := mul_le_mul_of_nonneg_right (Int.add_one_le_iff.mpr ht) (Int.natCast_nonneg unit)
    have habs := neg_le_abs ((n : ℤ) - t * unit)
    exact (min_le_right _ _).trans (by linarith)

/-! ## Rounding -/

/-- A mantissa after `k` shifts to the right, with what is left of the bits that are lost. -/
def shiftedMantissa (m k : ℕ) : ExtendedMantissa :=
  (⟨m, false, false⟩ : ExtendedMantissa) >>> k

theorem mod_two_pow_succ (m k : ℕ) : m % 2 ^ (k + 1) = 2 ^ k * (m / 2 ^ k % 2) + m % 2 ^ k := by
  rw [pow_succ, Nat.mod_mul, add_comm]

/-- The bits that are lost leave a trace if one of them is set. -/
theorem shiftedMantissa_bits (m k : ℕ) :
    (shiftedMantissa m k).mantissa = m / 2 ^ k ∧
      ((shiftedMantissa m k).roundBit || (shiftedMantissa m k).stickyBit) = decide
      (m % 2 ^ k ≠ 0) := by
  induction k with
  | zero => simp [shiftedMantissa, HShiftRight.hShiftRight, Nat.repeat, Nat.mod_one]
  | succ k ih =>
    obtain ⟨hmantissa, hbits⟩ := ih
    have hstep : shiftedMantissa m (k + 1) = (shiftedMantissa m k).shiftRightOne := rfl
    rw [hstep, ExtendedMantissa.shiftRightOne]
    dsimp only
    rw [hbits, hmantissa]
    refine ⟨by rw [Nat.div_div_eq_div_mul, pow_succ], ?_⟩
    have hpos : 0 < 2 ^ k := Nat.two_pow_pos k
    rw [Bool.eq_iff_iff]
    simp only [mod_two_pow_succ, Bool.or_eq_true, bne_iff_ne, decide_eq_true_iff, ne_eq,
      Nat.add_eq_zero_iff, Nat.mul_eq_zero]
    omega

/-- Rounding after a shift to the right. -/
theorem roundedMantissa_shifted (m k : ℕ) :
    (shiftedMantissa m k).roundedMantissa = nearestQuotient m (2 ^ k) := by
  cases k with
  | zero =>
    show m = _
    rw [nearestQuotient, pow_zero, Nat.mod_one, Nat.div_one]
    rfl
  | succ k =>
    obtain ⟨hmantissa, hbits⟩ := shiftedMantissa_bits m k
    have hstep : shiftedMantissa m (k + 1) =
      ⟨m / 2 ^ k / 2, m / 2 ^ k % 2 != 0, decide (m % 2 ^ k ≠ 0)⟩ := by
      show (shiftedMantissa m k).shiftRightOne = _
      rw [ExtendedMantissa.shiftRightOne, hmantissa, hbits]
    have hlt : m % 2 ^ k < 2 ^ k := Nat.mod_lt _ (Nat.two_pow_pos k)
    rw [hstep, nearestQuotient, mod_two_pow_succ, pow_succ, ← Nat.div_div_eq_div_mul]
    rcases Nat.mod_two_eq_zero_or_one (m / 2 ^ k) with hbit | hbit
    · -- less than half is lost
      rw [hbit, Nat.compare_eq_lt.mpr (by omega)]
      cases decide (m % 2 ^ k ≠ 0) <;> rfl
    · rcases Nat.eq_zero_or_pos (m % 2 ^ k) with hrest | hrest
      · rw [hbit, hrest, Nat.compare_eq_eq.mpr (by omega)]
        rfl
      · rw [hbit, Nat.compare_eq_gt.mpr (by omega), decide_eq_true (Nat.pos_iff_ne_zero.mp hrest)]
        rfl

/-- A mantissa of more than 53 bits is shifted until it has 53. -/
theorem shiftToTargetExponent_eq {m k : ℕ} {e : ℤ} (hm : m.log2 = 52 + k) (he : -1074 ≤ e + k) :
    shiftToTargetExponent .binary64 m e .exact = (shiftedMantissa m k, e + k) := by
  have htarget : Format.binary64.targetExponent (totalExponent m e) = e + k := by
    show max ((m.log2 : ℤ) + 1 + e - 53) (-1074) = e + k
    omega
  have hshift : (e + k - e).toNat = k := by omega
  unfold shiftToTargetExponent shiftToExponent
  dsimp only
  rw [htarget, hshift]
  rfl

/-- The double with a sign, what a shift has left of a mantissa, and an exponent. -/
def ofShifted (s : Sign) (shifted : ExtendedMantissa × ℤ) : UnpackedFloat :=
  if h : shifted.1.mantissa = 0 then .zero s else .finite s shifted.1.mantissa shifted.2
    (Nat.pos_of_ne_zero h)

/-- A mantissa of a normal double, or one that has just become too large for it. -/
theorem unpack_ofShifted (s : Sign) {m : ℕ} {e : ℤ} (hm : 2 ^ 52 ≤ m) (hm' : m ≤ 2 ^ 53)
    (he : -1074 ≤ e) (he' : e ≤ 970) :
    ∃ m' e' h, Normal m' e' ∧ e' ≤ e + 1 ∧
      (Float.Model.pack (ofShifted s (shiftToTargetExponent .binary64 m e .exact))).unpack =
      .finite s m' e' h ∧
      (m' : ℚ) * 2 ^ e' = m * 2 ^ e := by
  rcases hm'.lt_or_eq with hlt | rfl
  · have hnormal : Normal m e := ⟨hm, hlt, he, by omega⟩
    refine ⟨m, e, by omega, hnormal, by omega, ?_, rfl⟩
    have hshift := shiftToTargetExponent_eq (k := 0) hnormal.log2_eq
      (by omega : -1074 ≤ e + (0 : ℕ))
    have hne : ¬ (shiftedMantissa m 0).mantissa = 0 := (by omega : ¬ m = 0)
    rw [hshift, Nat.cast_zero, add_zero, ofShifted, dif_neg hne]
    exact unpack_pack _ hnormal
  · -- the mantissa is halved and the exponent moves
    have hnormal : Normal (2 ^ 52) (e + 1) := ⟨le_refl _, by decide, by omega, by omega⟩
    refine ⟨2 ^ 52, e + 1, by decide, hnormal, le_refl _, ?_, ?_⟩
    · have hlog : (2 ^ 53).log2 = 52 + 1 := Nat.log2_two_pow
      have hshift := shiftToTargetExponent_eq hlog (by omega : -1074 ≤ e + (1 : ℕ))
      rw [hshift, Nat.cast_one]
      exact unpack_pack _ hnormal
    · rw [zpow_add₀ (by norm_num : (2 : ℚ) ≠ 0)]
      push_cast
      ring

/-- Rounding a mantissa with more than enough bits leaves a normal double with the nearest one. -/
theorem unpack_round (s : Sign) {m k : ℕ} {e : ℤ} (hm : m.log2 = 52 + k) (he : -1074 ≤ e + k)
    (he' : e + k ≤ 970) :
    ∃ m' e' h, Normal m' e' ∧ e' ≤ e + k + 1 ∧
      (Float.Model.pack (roundWithAccuracy .binary64 s m e .exact)).unpack = .finite s m' e' h ∧
      (m' : ℚ) * 2 ^ e' = nearestQuotient m (2 ^ k) * 2 ^ (e + k) := by
  have hround : roundWithAccuracy .binary64 s m e .exact =
      ofShifted s (shiftToTargetExponent .binary64 (nearestQuotient m (2 ^ k)) (e + k) .exact) := by
    unfold roundWithAccuracy
    rw [shiftToTargetExponent_eq hm he]
    dsimp only
    rw [roundedMantissa_shifted]
    rfl
  have hne : m ≠ 0 := by
    rintro rfl
    rw [Nat.log2_zero] at hm
    omega
  obtain ⟨hlow, hhigh⟩ := (Nat.log2_eq_iff hne).mp hm
  rw [Nat.add_right_comm] at hhigh
  have hdiv : 2 ^ 52 ≤ m / 2 ^ k := by
    rw [Nat.le_div_iff_mul_le (Nat.two_pow_pos k), ← pow_add]
    exact hlow
  have hdiv' : m / 2 ^ k < 2 ^ 53 := by
    rw [Nat.div_lt_iff_lt_mul (Nat.two_pow_pos k), ← pow_add]
    exact hhigh
  rw [hround]
  exact unpack_ofShifted s (hdiv.trans (le_nearestQuotient _ _))
    ((nearestQuotient_le _ _).trans hdiv') he he'

/-! ## Integers as doubles -/

/-- How far apart neighbouring doubles are where `n` lies; one, if there are some between the
integers. -/
def spacing (n : ℕ) : ℕ :=
  2 ^ (n.log2 - 52)

/-- The natural number among the doubles that is nearest to `n`; of two that are equally near, the
one with an even mantissa. -/
def nearestDouble (n : ℕ) : ℕ :=
  nearestQuotient n (spacing n) * spacing n

/-- The integer among the doubles that is nearest to `n`. -/
def nearestInt (n : ℤ) : ℤ :=
  n.sign * nearestDouble n.natAbs

/-- Below `2 ^ 53` every integer is a double. -/
theorem spacing_eq_one {n : ℕ} (hn : n < 2 ^ 53) : spacing n = 1 := by
  rcases Nat.eq_zero_or_pos n with rfl | hpos
  · rfl
  · have hlog : n.log2 < 53 := (Nat.log2_lt (by omega)).mpr hn
    rw [spacing, (by omega : n.log2 - 52 = 0), pow_zero]

theorem nearestDouble_of_lt {n : ℕ} (hn : n < 2 ^ 53) : nearestDouble n = n := by
  have hmultiple := nearestQuotient_multiple Nat.one_pos n
  rw [Nat.mul_one] at hmultiple
  rw [nearestDouble, spacing_eq_one hn, hmultiple, Nat.mul_one]

/-- For a natural number nearest is nearest among the natural numbers. -/
theorem nearestInt_natCast (k : ℕ) : nearestInt k = nearestDouble k := by
  rcases Nat.eq_zero_or_pos k with rfl | hpos
  · rfl
  · rw [nearestInt, Int.sign_eq_one_of_pos (by omega), Int.natAbs_natCast, one_mul]

theorem nearestInt_neg (n : ℤ) : nearestInt (-n) = -nearestInt n := by
  rw [nearestInt, nearestInt, Int.sign_neg, Int.natAbs_neg, neg_mul]

theorem nearestInt_of_lt {n : ℤ} (hn : n.natAbs < 2 ^ 53) : nearestInt n = n := by
  rw [nearestInt, nearestDouble_of_lt hn, Int.sign_mul_natAbs]

theorem log2_mul_two_pow {n : ℕ} (hn : 0 < n) (k : ℕ) : (n * 2 ^ k).log2 = n.log2 + k := by
  have hne : n ≠ 0 := Nat.pos_iff_ne_zero.mp hn
  obtain ⟨hlow, hhigh⟩ := (Nat.log2_eq_iff hne).mp rfl
  refine (Nat.log2_eq_iff (Nat.mul_ne_zero hne (Nat.two_pow_pos k).ne')).mpr ⟨?_, ?_⟩
  · rw [pow_add]
    exact Nat.mul_le_mul_right _ hlow
  · rw [Nat.add_right_comm, pow_add]
    exact Nat.mul_lt_mul_of_pos_right hhigh (Nat.two_pow_pos k)

/-- A small word becomes a double without rounding. -/
theorem unpack_toFloat {n : ℕ} (hpos : 0 < n) (hn : n < 2 ^ 53) :
    ∃ m e h, Normal m e ∧ e ≤ 1 ∧ n.toUInt64.toFloat.toModel.unpack = .finite .positive m e h ∧
      (m : ℚ) * 2 ^ e = n := by
  have hlog : n.log2 ≤ 52 := Nat.lt_succ_iff.mp ((Nat.log2_lt (by omega)).mpr hn)
  -- the mantissa is made fifty-three bits long first, so that nothing is lost
  have hround : n.toUInt64.toFloat.toModel = Float.Model.pack
      (roundWithAccuracy .binary64 .positive (n * 2 ^ (52 - n.log2)) (0 - (52 - n.log2 : ℕ))
        .exact) := by
    have hword : n.toUInt64.toNat = n := by
      rw [Nat.toUInt64, UInt64.toNat_ofNat']
      omega
    have htarget : (0 - Format.binary64.targetExponent (totalExponent n 0)).toNat =
      52 - n.log2 := by
      show (0 - max ((n.log2 : ℤ) + 1 + 0 - 53) (-1074)).toNat = _
      omega
    show Float.Model.pack (UnpackedFloat.normalize .binary64 (n.toUInt64.toNat : ℤ) 0 .positive) = _
    rw [hword]
    unfold UnpackedFloat.normalize
    rw [Int.compare_eq_gt.mpr (by omega)]
    unfold UnpackedFloat.round decreaseExponent
    dsimp only
    rw [Int.toNat_natCast, htarget, Nat.shiftLeft_eq]
  have hlog' : (n * 2 ^ (52 - n.log2)).log2 = 52 + 0 := by
    rw [log2_mul_two_pow hpos]
    omega
  obtain ⟨m, e, h, hnormal, hle, hunpack, hvalue⟩ :=
    unpack_round .positive (e := 0 - (52 - n.log2 : ℕ)) hlog' (by omega) (by omega)
  refine ⟨m, e, h, hnormal, by omega, by rw [hround, hunpack], ?_⟩
  rw [hvalue, ← Nat.mul_one (n * 2 ^ (52 - n.log2)), pow_zero, nearestQuotient_multiple Nat.one_pos,
    Nat.cast_zero, add_zero, zero_sub, zpow_neg, zpow_natCast]
  push_cast
  rw [mul_assoc, mul_inv_cancel₀ (by positivity), mul_one]

/-- Small natural numbers are doubles.  They are read as a product with the power of ten that is
one. -/
theorem unpack_ofNat_small {n : ℕ} (hpos : 0 < n) (hn : n < 2 ^ 53) :
    ∃ m e h, Normal m e ∧ (Float.ofNat n).toModel.unpack = .finite .positive m e h ∧
    (m : ℚ) * 2 ^ e = n := by
  obtain ⟨m, e, h, hnormal, hle, hunpack, hvalue⟩ := unpack_toFloat hpos hn
  have hone : Float.exactlyRepresentablePowersOfTen[0].toModel.unpack =
      .finite .positive (2 ^ 52) (-52) (by decide) := by
    rfl
  have hmul : (Float.ofNat n).toModel =
      Float.Model.pack (roundWithAccuracy .binary64 .positive (m * 2 ^ 52) (e + -52) .exact) := by
    have hproduct : Float.ofNat n = n.toUInt64.toFloat * Float.exactlyRepresentablePowersOfTen[0] :=
      dif_pos ⟨hn, by decide⟩
    rw [hproduct]
    show Float.Model.pack (UnpackedFloat.mul .binary64 n.toUInt64.toFloat.toModel.unpack _) = _
    rw [hunpack, hone]
    rfl
  have hlog : (m * 2 ^ 52).log2 = 52 + 52 := by
    rw [log2_mul_two_pow h, hnormal.log2_eq]
  have hexponent := hnormal.le_exponent
  obtain ⟨m', e', h', hnormal', -, hunpack', hvalue'⟩ :=
    unpack_round .positive (e := e + -52) hlog (by omega) (by omega)
  refine ⟨m', e', h', hnormal', by rw [hmul, hunpack'], ?_⟩
  rw [hvalue', ← hvalue, nearestQuotient_multiple (by decide), Nat.cast_ofNat, neg_add_cancel_right]

/-- Large natural numbers are rounded to a multiple of the spacing. -/
theorem unpack_ofNat_large {n : ℕ} (hn : 2 ^ 53 ≤ n) (hn' : n ≤ 2 ^ 63) :
    ∃ m e h, Normal m e ∧ (Float.ofNat n).toModel.unpack = .finite .positive m e h ∧
      (m : ℚ) * 2 ^ e = nearestDouble n := by
  have hpos : 0 < n := by omega
  have hlog : 53 ≤ n.log2 := (Nat.le_log2 (by omega)).mpr hn
  have hlog' : n.log2 < 64 := (Nat.log2_lt (by omega)).mpr (by omega)
  -- the integer is read as a decimal number without a fraction, with 53 bits to spare
  have hround : (Float.ofNat n).toModel =
      Float.Model.pack (roundWithAccuracy .binary64 .positive (n * 2 ^ 53) (-53) .exact) := by
    have hmodel : Float.ofNat n = .ofModel (Float.Model.ofScientific n 0) :=
      dif_neg fun h => by omega
    rw [hmodel]
    show Float.Model.pack (UnpackedFloat.ofScientific .binary64 n 0) = _
    unfold UnpackedFloat.ofScientific
    rw [dif_neg (by omega), if_neg (by decide),
      if_neg (show ¬ (0 : ℤ) < -(2 ^ 11 + (n.log2 : ℤ)) by omega),
      if_pos (le_refl _)]
    unfold UnpackedFloat.mul
    dsimp only
    rw [Nat.shiftLeft_eq, Int.toNat_zero, pow_zero, Nat.mul_one, add_zero]
    rfl
  have hshift : (n * 2 ^ 53).log2 = 52 + (n.log2 + 1) := by
    rw [log2_mul_two_pow hpos]
    omega
  obtain ⟨m, e, h, hnormal, -, hunpack, hvalue⟩ :=
    unpack_round .positive (e := -53) hshift (by omega) (by omega)
  refine ⟨m, e, h, hnormal, by rw [hround, hunpack], ?_⟩
  -- these bits cancel
  have hscale : nearestQuotient (n * 2 ^ 53) (2 ^ (n.log2 + 1)) =
    nearestQuotient n (spacing n) := by
    have hpow : 2 ^ (n.log2 + 1) = 2 ^ (n.log2 - 52) * 2 ^ 53 := by
      rw [← pow_add]
      congr 1
      omega
    rw [spacing, hpow, nearestQuotient_mul (by positivity)]
  have hexponent : -53 + ((n.log2 + 1 : ℕ) : ℤ) = (n.log2 - 52 : ℕ) := by omega
  rw [hvalue, hscale, hexponent, zpow_natCast, nearestDouble, spacing]
  push_cast
  rfl

/-- A positive integer as a double: its parts are those of a normal double, whose value is the
nearest one. -/
theorem unpack_ofNat {n : ℕ} (hpos : 0 < n) (hn : n ≤ 2 ^ 63) :
    ∃ m e h, Normal m e ∧ (Float.ofNat n).toModel.unpack = .finite .positive m e h ∧
      (m : ℚ) * 2 ^ e = nearestDouble n := by
  rcases lt_or_ge n (2 ^ 53) with hsmall | hlarge
  · rw [nearestDouble_of_lt hsmall]
    exact unpack_ofNat_small hpos hsmall
  · exact unpack_ofNat_large hlarge hn

/-- An integer of up to sixty-four bits becomes the double nearest to it. -/
theorem rational?_ofInt {n : ℤ} (hn : n.natAbs ≤ 2 ^ 63) :
    rational? (Float.ofInt n) = some (nearestInt n : ℚ) := by
  rcases Int.lt_trichotomy n 0 with hneg | rfl | hpos
  · obtain ⟨k, rfl⟩ := Int.eq_negSucc_of_lt_zero hneg
    obtain ⟨m, e, h, hnormal, hunpack, hvalue⟩ := unpack_ofNat k.succ_pos hn
    have hopposite : (Float.ofInt (Int.negSucc k)).toModel.unpack = .finite .negative m e h := by
      show (Float.Model.pack (UnpackedFloat.neg (Float.ofNat k.succ).toModel.unpack)).unpack = _
      rw [hunpack]
      exact unpack_pack h hnormal
    rw [rational?, hopposite, valueOf, Sign.apply, Int.cast_neg, neg_mul, Int.cast_natCast, hvalue,
      Int.negSucc_eq, ← Nat.cast_succ, nearestInt_neg, nearestInt_natCast, Int.cast_neg,
      Int.cast_natCast]
  · rfl
  · obtain ⟨k, rfl⟩ := Int.eq_ofNat_of_zero_le hpos.le
    obtain ⟨m, e, h, hnormal, hunpack, hvalue⟩ := unpack_ofNat (by omega : 0 < k) hn
    have hsame : (Float.ofInt (k : ℤ)).toModel.unpack = .finite .positive m e h := hunpack
    rw [rational?, hsame, valueOf, Sign.apply, Int.cast_natCast, hvalue, nearestInt_natCast,
      Int.cast_natCast]

/-- No integer of the language is further from zero than `2 ^ 63`. -/
theorem natAbs_toInt_le (n : Int64) : n.toInt.natAbs ≤ 2 ^ 63 := by
  have hlow := Int64.le_toInt n
  have hhigh := Int64.toInt_lt n
  omega

/-- No multiple of the spacing is nearer, nor is what lies below the power of two where the spacing
changes. -/
theorem nearestDouble_nearest {n : ℕ} {q : ℚ}
    (hq : 2 ^ 53 ≤ n → 2 ^ n.log2 ≤ |q| → ∃ t : ℤ, q = t * 2 ^ (n.log2 - 52)) :
    |(n : ℚ) - nearestDouble n| ≤ |n - q| := by
  rcases lt_or_ge n (2 ^ 53) with hn | hn
  · rw [nearestDouble_of_lt hn, sub_self, abs_zero]
    exact abs_nonneg _
  have hlog : 53 ≤ n.log2 := (Nat.le_log2 (by omega)).mpr hn
  have hgrid (t : ℤ) : |(n : ℚ) - nearestDouble n| ≤ |(n : ℚ) - t * 2 ^ (n.log2 - 52)| := by
    have hnearest := @nearestQuotient_nearest n (spacing n) (Nat.two_pow_pos _) t
    rw [spacing] at hnearest
    rw [nearestDouble, spacing]
    exact_mod_cast hnearest
  rcases le_or_gt (2 ^ n.log2) |q| with hlarge | hsmall
  · obtain ⟨t, rfl⟩ := hq hn hlarge
    exact hgrid t
  · -- the power of two below `n` is a double that is nearer
    have hpow : (2 : ℚ) ^ n.log2 = ((2 ^ 52 : ℤ) : ℚ) * 2 ^ (n.log2 - 52) := by
      rw [Int.cast_pow, Int.cast_ofNat, ← pow_add]
      congr 1
      omega
    have hle : (2 : ℚ) ^ n.log2 ≤ n := by exact_mod_cast Nat.log2_self_le (by omega : n ≠ 0)
    have hq' := le_abs_self q
    have habs := le_abs_self ((n : ℚ) - q)
    calc |(n : ℚ) - nearestDouble n| ≤ |(n : ℚ) - 2 ^ n.log2| := hpow ▸ hgrid (2 ^ 52)
      _ = n - 2 ^ n.log2 := abs_of_nonneg (by linarith)
      _ ≤ |n - q| := by linarith

/-- No double is nearer to an integer. -/
theorem nearestInt_nearest (n : ℤ) {x : Float} {q : ℚ} (hx : rational? x = some q) :
    |(n : ℚ) - nearestInt n| ≤ |n - q| := by
  have hgrid (k : ℕ) (hk : 2 ^ 53 ≤ k) (hq : 2 ^ k.log2 ≤ |q|) : ∃ t : ℤ,
    q = t * 2 ^ (k.log2 - 52) := by
    have hlog : 53 ≤ k.log2 := (Nat.le_log2 (by omega)).mpr hk
    exact exists_multiple hx (by rwa [(by omega : 52 + (k.log2 - 52) = k.log2)])
  rcases Int.eq_nat_or_neg n with ⟨k, rfl | rfl⟩
  · rw [nearestInt_natCast]
    exact_mod_cast nearestDouble_nearest (hgrid k)
  · have hnearest : |(k : ℚ) - nearestDouble k| ≤ |(k : ℚ) - -q| := by
      refine nearestDouble_nearest fun hk hq => ?_
      obtain ⟨t, ht⟩ := hgrid k hk (by rwa [abs_neg] at hq)
      exact ⟨-t, by rw [ht]; push_cast; ring⟩
    have hneg (r : ℚ) : |-(k : ℚ) - r| = |(k : ℚ) - -r| := by
      rw [← abs_neg]
      congr 1
      ring
    rw [nearestInt_neg, nearestInt_natCast, Int.cast_neg, Int.cast_neg, Int.cast_natCast,
      Int.cast_natCast, hneg, hneg, neg_neg]
    exact hnearest

end EntityScript.Decimal
