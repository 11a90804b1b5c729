import DocQuery.Expression.Arithmetic
import Mathlib.Algebra.Order.Field.Power
import Mathlib.Data.Nat.Size
import Mathlib.Data.Rat.Floor

/-!
# Powers of ints

A power of ints is the rational power, cut off toward zero: a whole number where the exponent is not
negative, and else a fraction of one, unless the base is one or minus one.  Only a base beyond these
can make the result too large, which is decided by a bound that no result exceeds.

Main names:

* `towardZero` — a rational number cut off toward zero;
* `powInt_eq` — the conditions under which a power fails, and its value elsewhere;
* `size_pow_le` — a power has at most as many bits as its base, as often as the exponent says;
* `applyInt_power_exact` — all of this about the operation on ints.
-/

namespace DocQuery

namespace ArithmeticOperator

/-! ## Rational powers, cut off -/

/-- A rational number cut off toward zero. -/
def towardZero (q : ℚ) : ℤ :=
  if 0 ≤ q then ⌊q⌋ else ⌈q⌉

theorem towardZero_intCast (n : ℤ) : towardZero n = n := by
  unfold towardZero
  rw [Int.floor_intCast, Int.ceil_intCast, ite_self]

theorem towardZero_of_abs_lt_one {q : ℚ} (hq : |q| < 1) : towardZero q = 0 := by
  obtain ⟨hlow, hhigh⟩ := abs_lt.mp hq
  unfold towardZero
  split
  · rename_i hpos
    exact Int.floor_eq_zero_iff.mpr ⟨hpos, hhigh⟩
  · rename_i hneg
    exact Int.ceil_eq_zero_iff.mpr ⟨hlow, le_of_not_ge hneg⟩

variable {a b : ℤ}

/-- A power to an exponent that is not negative is whole. -/
theorem towardZero_zpow_of_nonneg (a : ℤ) (hb : 0 ≤ b) :
    towardZero ((a : ℚ) ^ b) = a ^ b.toNat := by
  obtain ⟨n, rfl⟩ := Int.eq_ofNat_of_zero_le hb
  rw [zpow_natCast, Int.toNat_natCast, ← Int.cast_pow]
  exact towardZero_intCast _

/-- The reciprocal of a number beyond one is cut off to nothing. -/
theorem towardZero_zpow_of_neg (ha : 2 ≤ |a|) (hb : b < 0) : towardZero ((a : ℚ) ^ b) = 0 := by
  refine towardZero_of_abs_lt_one ?_
  have habs : (1 : ℚ) < |(a : ℚ)| := by
    rw [← Int.cast_abs]
    exact_mod_cast ha
  rw [abs_zpow]
  exact zpow_lt_one_of_neg₀ habs hb

theorem neg_one_zpow_of_parity (b : ℤ) :
    ((-1 : ℤ) : ℚ) ^ b = ((if b % 2 = 0 then 1 else -1 : ℤ) : ℚ) := by
  have hcast : ((-1 : ℤ) : ℚ) = -1 := by norm_num
  rw [hcast]
  split
  · rename_i heven
    rw [(Int.even_iff.mpr heven).neg_one_zpow]
    norm_num
  · rename_i hodd
    rw [(Int.not_even_iff_odd.mp fun heven => hodd (Int.even_iff.mp heven)).neg_one_zpow]
    norm_num

/-! ## Bits -/

theorem bitLength_eq_size (n : ℕ) : bitLength n = n.size := by
  unfold bitLength
  split
  · rename_i hzero
    rw [hzero, Nat.size_zero]
  · rename_i hsome
    refine le_antisymm ?_ ?_
    · exact Nat.lt_size.mpr (Nat.log2_self_le hsome)
    · exact Nat.size_le.mpr Nat.lt_log2_self

/-- A power has at most as many bits as its base, as often as the exponent says. -/
theorem size_pow_le (m : ℕ) {n : ℕ} (hn : n ≠ 0) : (m ^ n).size ≤ m.size * n := by
  rw [Nat.size_le, pow_mul]
  exact Nat.pow_lt_pow_left m.lt_size_self hn

/-! ## Powers -/

/-- Whether a power is refused because its result may be too large. -/
def PowerTooLarge (a b : ℤ) : Prop :=
  2 ≤ |a| ∧ 0 ≤ b ∧ (2 ^ 32 ≤ b ∨ 2 ^ 20 < a.natAbs.size * b)

instance (a b : ℤ) : Decidable (PowerTooLarge a b) :=
  inferInstanceAs (Decidable (_ ∧ _ ∧ (_ ∨ _)))

theorem not_powerTooLarge (ha : |a| < 2) (b : ℤ) : ¬ PowerTooLarge a b :=
  fun hlarge => absurd hlarge.1 (not_le.mpr ha)

/-- The bound on the exponent and on the bits is the opposite of being too large. -/
theorem powerTooLarge_iff (ha : 2 ≤ |a|) (hb : 0 ≤ b) :
    PowerTooLarge a b ↔ ¬ (b < 2 ^ 32 ∧ bitLength a.natAbs * b.toNat ≤ maxPowerBits) := by
  obtain ⟨n, rfl⟩ := Int.eq_ofNat_of_zero_le hb
  rw [bitLength_eq_size, Int.toNat_natCast, not_and_or, not_lt, not_le]
  have hbits : (2 : ℤ) ^ 20 < a.natAbs.size * n ↔ maxPowerBits < a.natAbs.size * n := by
    unfold maxPowerBits
    norm_cast
  rw [← hbits]
  exact ⟨fun hlarge => hlarge.2.2, fun hlarge => ⟨ha, hb, hlarge⟩⟩

theorem powInt_of_large_base (ha : 2 ≤ |a|) (b : ℤ) :
    powInt a b =
      if PowerTooLarge a b then .error (.overflow (.power a b))
      else .ok (towardZero ((a : ℚ) ^ b)) := by
  have hzero : a ≠ 0 := by
    rintro rfl
    exact absurd ha (by decide)
  have hone : a ≠ 1 := by
    rintro rfl
    exact absurd ha (by decide)
  have hneg : a ≠ -1 := by
    rintro rfl
    exact absurd ha (by decide)
  rw [powInt, if_neg hzero, if_neg hone, if_neg hneg]
  -- The bounds are for exponents that are not negative.
  by_cases hb : b < 0
  · rw [if_pos hb, if_neg fun hlarge => absurd hb (not_lt.mpr hlarge.2.1),
      towardZero_zpow_of_neg ha hb]
  · have hiff := powerTooLarge_iff ha (not_lt.mp hb)
    rw [if_neg hb]
    by_cases hfits : b < 2 ^ 32 ∧ bitLength a.natAbs * b.toNat ≤ maxPowerBits
    · rw [if_pos hfits, if_neg fun hlarge => hiff.mp hlarge hfits,
        towardZero_zpow_of_nonneg a (not_lt.mp hb)]
    · rw [if_neg hfits, if_pos (hiff.mpr hfits)]

theorem powInt_zero_base (hb : ¬ b < 0) : powInt 0 b = .ok (towardZero (((0 : ℤ) : ℚ) ^ b)) := by
  have hpower : ((0 : ℤ) : ℚ) ^ b = ((if b = 0 then 1 else 0 : ℤ) : ℚ) := by
    rw [Int.cast_zero, zero_zpow_eq]
    split <;> norm_num
  rw [powInt, if_pos rfl, if_neg hb, hpower, towardZero_intCast]

theorem powInt_one_base (b : ℤ) : powInt 1 b = .ok (towardZero (((1 : ℤ) : ℚ) ^ b)) := by
  have hpower : ((1 : ℤ) : ℚ) ^ b = ((1 : ℤ) : ℚ) := by rw [Int.cast_one, one_zpow]
  rw [powInt, if_neg (by decide), if_pos rfl, hpower, towardZero_intCast]

theorem powInt_neg_one_base (b : ℤ) : powInt (-1) b = .ok (towardZero (((-1 : ℤ) : ℚ) ^ b)) := by
  rw [powInt, if_neg (by decide), if_neg (by decide), if_pos rfl, neg_one_zpow_of_parity,
    towardZero_intCast]

/-- The powers of zero, one and minus one are never too large. -/
theorem powInt_of_small_base (ha : |a| < 2) (hb : ¬ (a = 0 ∧ b < 0)) :
    powInt a b = .ok (towardZero ((a : ℚ) ^ b)) := by
  have hcases : a = 0 ∨ a = 1 ∨ a = -1 := by
    rw [abs_lt] at ha
    omega
  rcases hcases with rfl | rfl | rfl
  · exact powInt_zero_base fun hneg => hb ⟨rfl, hneg⟩
  · exact powInt_one_base b
  · exact powInt_neg_one_base b

/-- A power of ints in closed form. -/
theorem powInt_eq (a b : ℤ) :
    powInt a b =
      if a = 0 ∧ b < 0 then .error .divisionByZero
      else if PowerTooLarge a b then .error (.overflow (.power a b))
      else .ok (towardZero ((a : ℚ) ^ b)) := by
  by_cases hzero : a = 0 ∧ b < 0
  · obtain ⟨rfl, hb⟩ := hzero
    rw [if_pos ⟨rfl, hb⟩, powInt, if_pos rfl, if_pos hb]
  · rw [if_neg hzero]
    by_cases ha : |a| < 2
    · rw [powInt_of_small_base ha hzero, if_neg (not_powerTooLarge ha b)]
    · exact powInt_of_large_base (not_lt.mp ha) b

/-- What is not too large has no more bits than the bound says. -/
theorem size_towardZero_zpow_le (ha : 2 ≤ |a|) (hfits : ¬ PowerTooLarge a b) :
    (towardZero ((a : ℚ) ^ b)).natAbs.size ≤ 2 ^ 20 := by
  by_cases hb : b < 0
  · rw [towardZero_zpow_of_neg ha hb, Int.natAbs_zero, Nat.size_zero]
    exact Nat.zero_le _
  · have hb := not_lt.mp hb
    rw [powerTooLarge_iff ha hb, not_not, bitLength_eq_size] at hfits
    rw [towardZero_zpow_of_nonneg a hb, Int.natAbs_pow]
    -- To the power of zero even a long base gives one, which has a bit.
    by_cases hexponent : b.toNat = 0
    · rw [hexponent, pow_zero]
      exact Nat.size_one.trans_le (by decide)
    · exact le_trans (size_pow_le _ hexponent) hfits.2

/-- A power of ints is exact.  It divides by zero only where the base is zero and the exponent is
negative, and is too large only where the base is beyond one and minus one and the exponent, or the
bits of the base as often as it says, pass their bounds.  Else it is the rational power cut off toward
zero, and has no more bits than the bound says. -/
theorem applyInt_power_exact (a b : ℤ) :
    (power.applyInt a b = .error .divisionByZero ↔ a = 0 ∧ b < 0) ∧
      (∀ cause, power.applyInt a b = .error (.overflow cause) ↔
        cause = .power a b ∧
          2 ≤ |a| ∧ 0 ≤ b ∧ (2 ^ 32 ≤ b ∨ 2 ^ 20 < a.natAbs.size * b)) ∧
      (¬ (a = 0 ∧ b < 0) →
        ¬ (2 ≤ |a| ∧ 0 ≤ b ∧ (2 ^ 32 ≤ b ∨ 2 ^ 20 < a.natAbs.size * b)) →
        power.applyInt a b = .ok (towardZero ((a : ℚ) ^ b))) ∧
      ∀ n, power.applyInt a b = .ok n → 2 ≤ |a| → n.natAbs.size ≤ 2 ^ 20 := by
  change (powInt a b = _ ↔ _) ∧ (∀ cause, powInt a b = _ ↔ cause = _ ∧ PowerTooLarge a b) ∧
    (_ → ¬ PowerTooLarge a b → powInt a b = _) ∧ ∀ n, powInt a b = _ → _ → _
  rw [powInt_eq]
  -- The three cases of `powInt_eq` exclude each other, so each settles all four parts.
  by_cases hzero : a = 0 ∧ b < 0
  · rw [if_pos hzero]
    refine ⟨iff_of_true rfl hzero, fun cause => iff_of_false nofun ?_, fun hsome => absurd hzero hsome,
      nofun⟩
    rintro ⟨_, hlarge⟩
    exact absurd hzero.2 (not_lt.mpr hlarge.2.1)
  · rw [if_neg hzero]
    by_cases hlarge : PowerTooLarge a b
    · rw [if_pos hlarge]
      refine ⟨iff_of_false nofun hzero, fun cause => ?_, fun _ hfits => absurd hlarge hfits, nofun⟩
      rw [and_iff_left hlarge, Except.error.injEq, EvalError.overflow.injEq]
      exact eq_comm
    · rw [if_neg hlarge]
      refine ⟨iff_of_false nofun hzero, fun cause => iff_of_false nofun fun h => hlarge h.2,
        fun _ _ => rfl, fun n hn ha => ?_⟩
      cases hn
      exact size_towardZero_zpow_le ha hlarge

/-- Minus three to the power of three, and to the power of minus three. -/
theorem applyInt_power_exact_minus_three :
    power.applyInt (-3) 3 = .ok (-27) ∧ (-27 : ℤ).natAbs.size ≤ 2 ^ 20 ∧
      power.applyInt (-3) (-3) = .ok 0 := by
  have hfits (b : ℤ) (hb : b ≤ 3) : ¬ PowerTooLarge (-3) b := by
    rintro ⟨_, _, hexponent | hbits⟩
    · omega
    · have hsize : (-3 : ℤ).natAbs.size = 2 := (bitLength_eq_size 3).symm
      rw [hsize] at hbits
      omega
  obtain ⟨_, _, hvalue, hbits⟩ := applyInt_power_exact (-3) 3
  have hcube := hvalue (by decide) (hfits 3 (le_refl 3))
  rw [towardZero_zpow_of_nonneg _ (by decide)] at hcube
  obtain ⟨_, _, hvalue', _⟩ := applyInt_power_exact (-3) (-3)
  have hreciprocal := hvalue' (by decide) (hfits (-3) (by decide))
  rw [towardZero_zpow_of_neg (by decide) (by decide)] at hreciprocal
  exact ⟨hcube, hbits _ hcube (by decide), hreciprocal⟩

end ArithmeticOperator

end DocQuery
