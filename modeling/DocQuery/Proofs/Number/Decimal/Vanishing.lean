import DocQuery.Number.Decimal.Binary64
import DocQuery.Proofs.Number.Binary64.Rounded
import DocQuery.Proofs.Number.Decimal

/-!
# Floats too small for decimals

A float is turned into a decimal by trading powers of two for powers of ten; the exact value is lost
only where there is no room, and hardly any of it. What does not fit the largest scale is then
dropped digit by digit. So a float becomes a zero if it is well below the least positive decimal, and
only if it is below it.

Main names:

* `traded_tradeHalves` — what trading loses;
* `Binary64.vanishes` — a float that is not zero, but whose decimal is;
* `Binary64.units_lt_of_vanishes`, `Binary64.vanishes_of_units_le` — how small such a float is, and
  how small a float has to be.
-/

namespace DocQuery.Number

namespace Decimal

/-! ## Powers of two -/

/-- What trading `n` powers of two makes of `m` and an exponent: a number that is worth no more, and
hardly less. -/
def Traded (n m : Nat) (e : Int) (found : Nat × Int) : Prop :=
  ∃ t : Nat, found.2 = e + t ∧ t ≤ n ∧ found.1 ≠ 0 ∧ found.1 * 10 ^ t ≤ m * 5 ^ n ∧
    m * 5 ^ n * (bound - 5 * n) ≤ found.1 * 10 ^ t * bound

variable {n m k : Nat} {e : Int} {found : Nat × Int}

/-- Multiplying by five loses nothing. -/
theorem Traded.raised (htraded : Traded n (5 * m) e found) : Traded (n + 1) m e found := by
  obtain ⟨t, hexponent, ht, hsome, hhigh, hlow⟩ := htraded
  have hpow : m * 5 ^ (n + 1) = 5 * m * 5 ^ n := by
    rw [Nat.pow_succ, Nat.mul_comm (5 ^ n), ← Nat.mul_assoc, Nat.mul_comm m]
  refine ⟨t, hexponent, Nat.le_succ_of_le ht, hsome, ?_, ?_⟩
  · rwa [hpow]
  · rw [hpow]
    exact Nat.le_trans (Nat.mul_le_mul_left _ (by omega)) hlow

/-- Halving loses at most one, which each step may lose. -/
theorem Traded.halved (hhalf : 2 * k ≤ m)
    (hlost : m * (bound - 5 * (n + 1)) ≤ 2 * k * (bound - 5 * n))
    (htraded : Traded n k (e + 1) found) : Traded (n + 1) m e found := by
  obtain ⟨t, hexponent, ht, hsome, hhigh, hlow⟩ := htraded
  refine ⟨t + 1, by omega, Nat.succ_le_succ ht, hsome, ?_, ?_⟩
  · calc
      found.1 * 10 ^ (t + 1) = 10 * (found.1 * 10 ^ t) := by
        rw [Nat.pow_succ]
        ac_rfl
      _ ≤ 10 * (k * 5 ^ n) := Nat.mul_le_mul_left _ hhigh
      _ = 2 * k * 5 ^ (n + 1) := by
        rw [Nat.pow_succ, show (10 : Nat) = 2 * 5 from rfl]
        ac_rfl
      _ ≤ m * 5 ^ (n + 1) := Nat.mul_le_mul_right _ hhalf
  · calc
      m * 5 ^ (n + 1) * (bound - 5 * (n + 1)) = 5 ^ (n + 1) * (m * (bound - 5 * (n + 1))) := by
        ac_rfl
      _ ≤ 5 ^ (n + 1) * (2 * k * (bound - 5 * n)) := Nat.mul_le_mul_left _ hlost
      _ = 10 * (k * 5 ^ n * (bound - 5 * n)) := by
        rw [Nat.pow_succ, show (10 : Nat) = 2 * 5 from rfl]
        ac_rfl
      _ ≤ 10 * (found.1 * 10 ^ t * bound) := Nat.mul_le_mul_left _ hlow
      _ = found.1 * 10 ^ (t + 1) * bound := by
        rw [Nat.pow_succ]
        ac_rfl

/-- One out of a fifth of the bound is what a step may lose. -/
theorem odd_loss (hn : 5 * (n + 1) ≤ bound) (hodd : ¬ m % 2 = 0) (hroom : bound ≤ 5 * m) :
    m * (bound - 5 * (n + 1)) ≤ 2 * (m / 2) * (bound - 5 * n) := by
  obtain ⟨left, hleft⟩ := Nat.exists_eq_add_of_le hn
  have hbefore : bound - 5 * n = left + 5 := by omega
  have hafter : bound - 5 * (n + 1) = left := by omega
  have hm : m = 2 * (m / 2) + 1 := by omega
  rw [hbefore, hafter]
  generalize m / 2 = h at hm ⊢
  subst hm
  rw [Nat.add_mul, Nat.mul_add, Nat.one_mul]
  omega

theorem traded_tradeHalves (hn : 5 * n ≤ bound) (hm : m ≠ 0) (e : Int) :
    Traded n m e (tradeHalves n m e) := by
  -- The coefficient and the exponent are free, since every step changes them.
  induction n generalizing m e with
  | zero =>
      exact ⟨0, (Int.add_zero e).symm, Nat.le_refl 0, hm, Nat.le_refl _, Nat.le_refl _⟩
  | succ n ih =>
      rw [tradeHalves]
      split
      · rename_i heven
        have htwo : 2 * (m / 2) = m := by omega
        refine Traded.halved (Nat.le_of_eq htwo) ?_ (ih (by omega) (by omega) (e + 1))
        rw [htwo]
        exact Nat.mul_le_mul_left _ (by omega)
      · rename_i hodd
        split
        · exact Traded.raised (ih (by omega) (by omega) e)
        · rename_i hroom
          -- Without room the coefficient is so large that half a unit is a small share of it.
          have hlarge : 2 ^ 96 ≤ 5 * m := Nat.not_lt.mp hroom
          exact Traded.halved (by omega) (odd_loss hn hodd hlarge)
            (ih (by omega) (by omega) (e + 1))

/-- As few steps as there are below one lose less than a hundredth. -/
theorem ninetyNine_le_of_traded {a b : Nat} (hn : n ≤ 1074) (hle : a * (bound - 5 * n) ≤ b * bound) :
    99 * a ≤ 100 * b := by
  refine Nat.le_of_mul_le_mul_right (c := bound) ?_ (Nat.pow_pos (by decide))
  have hshare : 99 * bound ≤ 100 * (bound - 5 * n) := by
    have hbound : bound = 2 ^ 96 := rfl
    omega
  calc
    99 * a * bound = a * (99 * bound) := by ac_rfl
    _ ≤ a * (100 * (bound - 5 * n)) := Nat.mul_le_mul_left _ hshare
    _ = 100 * (a * (bound - 5 * n)) := Nat.mul_left_comm _ _ _
    _ ≤ 100 * (b * bound) := Nat.mul_le_mul_left _ hle
    _ = 100 * b * bound := (Nat.mul_assoc _ _ _).symm

/-! ## Digits beyond the largest scale -/

theorem dropDigit_eq (m : Nat) : dropDigit m = (m + 5) / 10 := by
  unfold dropDigit roundDiv
  simp only [goesUp_up_iff]
  split <;> omega

/-- Where the scale fits, nothing is dropped. -/
theorem raiseToScale_of_fits (fuel m : Nat) (he : -28 ≤ e) : raiseToScale fuel m e = (m, e) := by
  cases fuel with
  | zero => rfl
  | succ fuel =>
      rw [raiseToScale, if_neg]
      show ¬ e < -28
      omega

theorem raiseToScale_step {fuel i : Nat} (hm : 10 ≤ m) :
    raiseToScale (fuel + 1) m (-(28 + (i + 1) : Nat)) =
      raiseToScale fuel (dropDigit m) (-(28 + i : Nat)) := by
  have hbeyond : -((28 + (i + 1) : Nat) : Int) < -maxScale := by
    show -((28 + (i + 1) : Nat) : Int) < -28
    omega
  rw [raiseToScale, if_pos hbeyond, if_neg (by omega)]
  congr 1
  omega

/-- What is worth almost a last place or more does not vanish while digits are dropped. -/
theorem raiseToScale_ne_zero {fuel i : Nat} (hfuel : i ≤ fuel) (hm : 99 * 10 ^ i ≤ 100 * m) :
    (raiseToScale fuel m (-(28 + i : Nat))).1 ≠ 0 := by
  induction i generalizing fuel m with
  | zero =>
      rw [raiseToScale_of_fits fuel m (by omega)]
      show m ≠ 0
      omega
  | succ i ih =>
      obtain ⟨fuel, rfl⟩ : ∃ f, fuel = f + 1 := ⟨fuel - 1, by omega⟩
      have hpow : 10 ^ (i + 1) = 10 * 10 ^ i := Nat.pow_succ'
      have hpos : 0 < 10 ^ i := Nat.pow_pos (by decide)
      rw [raiseToScale_step (by omega)]
      refine ih (by omega) ?_
      rw [dropDigit_eq]
      -- Two digits are needed for the share of the last place to be a multiple of ten.
      match i with
      | 0 => omega
      | 1 => omega
      | i + 2 =>
          have hpow' : 10 ^ (i + 2) = 100 * 10 ^ i := by
            rw [Nat.pow_succ, Nat.pow_succ]
            omega
          omega

/-- What is worth nine tenths of a last place or less vanishes. -/
theorem raiseToScale_eq_zero {fuel i : Nat} (hfuel : i ≤ fuel) (hm : 10 * m ≤ 9 * 10 ^ i) :
    ∃ e, raiseToScale fuel m (-(28 + i : Nat)) = (0, e) ∧ -28 ≤ e ∧ e ≤ 0 := by
  induction i generalizing fuel m with
  | zero =>
      rw [raiseToScale_of_fits fuel m (by omega)]
      exact ⟨-28, by rw [show m = 0 by omega]; rfl, by omega, by omega⟩
  | succ i ih =>
      obtain ⟨fuel, rfl⟩ : ∃ f, fuel = f + 1 := ⟨fuel - 1, by omega⟩
      have hpow : 10 ^ (i + 1) = 10 * 10 ^ i := Nat.pow_succ'
      by_cases hlarge : 10 ≤ m
      · rw [raiseToScale_step hlarge]
        refine ih (by omega) ?_
        rw [dropDigit_eq]
        match i with
        | 0 => omega
        | i + 1 =>
            have hpow' : 10 ^ (i + 1) = 10 * 10 ^ i := Nat.pow_succ'
            omega
      · have hbeyond : -((28 + (i + 1) : Nat) : Int) < -maxScale := by
          show -((28 + (i + 1) : Nat) : Int) < -28
          omega
        rw [raiseToScale, if_pos hbeyond, if_pos (by omega)]
        exact ⟨0, rfl, by omega, by omega⟩

/-! ## Digits of the fraction -/

theorem dropExcess_eq_zero_iff (fuel m : Nat) (e : Int) : (dropExcess fuel m e).1 = 0 ↔ m = 0 := by
  induction fuel generalizing m e with
  | zero => exact Iff.rfl
  | succ fuel ih =>
      rw [dropExcess]
      split
      · rw [ih, dropDigit_eq]
        omega
      · exact Iff.rfl

theorem dropTrailing_eq_zero_iff (fuel m : Nat) (e : Int) :
    (dropTrailing fuel m e).1 = 0 ↔ m = 0 := by
  induction fuel generalizing m e with
  | zero => exact Iff.rfl
  | succ fuel ih =>
      rw [dropTrailing]
      split
      · rw [ih]
        omega
      · exact Iff.rfl

/-- The decimal of `m * 10 ^ e`, with as many digits as fit. -/
def fitted (negative : Bool) (m : Nat) (e : Int) : Option Decimal :=
  let (m, e) := raiseToScale (-e).toNat m e
  let (m, e) := dropExcess maxScale m e
  let (m, e) := dropTrailing maxScale m e
  make? negative m (-e).toNat

/-- Only dropping what is beyond the largest scale can make a zero. -/
theorem isZero_of_fitted {negative : Bool} {d : Decimal} (hd : fitted negative m e = some d) :
    d.isZero = true ↔ (raiseToScale (-e).toNat m e).1 = 0 := by
  unfold fitted at hd
  dsimp only at hd
  obtain ⟨_, hcoefficient⟩ := eq_of_make hd
  rw [isZero, beq_iff_eq, hcoefficient, dropTrailing_eq_zero_iff, dropExcess_eq_zero_iff]

theorem dropExcess_zero (fuel : Nat) (e : Int) : dropExcess fuel 0 e = (0, e) := by
  cases fuel with
  | zero => rfl
  | succ fuel => rw [dropExcess, if_neg fun hlarge => absurd hlarge.2 (by decide)]

theorem dropTrailing_zero (fuel : Nat) (hlow : -28 ≤ e) (hhigh : e ≤ 0) :
    ∃ e', dropTrailing fuel 0 e = (0, e') ∧ -28 ≤ e' ∧ e' ≤ 0 := by
  induction fuel generalizing e with
  | zero => exact ⟨e, rfl, hlow, hhigh⟩
  | succ fuel ih =>
      rw [dropTrailing]
      split
      · exact ih (by omega) (by omega)
      · exact ⟨e, rfl, hlow, hhigh⟩

theorem fitted_of_raise_zero (negative : Bool) {e' : Int} (hlow : -28 ≤ e') (hhigh : e' ≤ 0)
    (hraise : raiseToScale (-e).toNat m e = (0, e')) :
    ∃ d, fitted negative m e = some d ∧ d.isZero = true := by
  obtain ⟨last, htrailing, hlow', hhigh'⟩ := dropTrailing_zero maxScale hlow hhigh
  have hrange : 0 < 2 ^ 96 ∧ (-last).toNat ≤ 28 := ⟨by decide, by omega⟩
  refine ⟨⟨negative, 0, (-last).toNat, hrange.1, hrange.2⟩, ?_, rfl⟩
  unfold fitted
  simp only [hraise, dropExcess_zero, htrailing]
  exact dif_pos hrange

/-! ## Large floats -/

theorem tradeDoubles_ne_zero (hm : m ≠ 0) (he : n ≤ e) (hfound : tradeDoubles n m e = some found) :
    found.1 ≠ 0 ∧ 0 ≤ found.2 := by
  induction n generalizing m e with
  | zero =>
      cases hfound
      exact ⟨hm, by omega⟩
  | succ n ih =>
      rw [tradeDoubles] at hfound
      split at hfound
      · exact ih (by omega) (by omega) hfound
      · split at hfound
        · cases hfound
        · exact ih (by omega) (by omega) hfound

theorem raise_ne_zero {m' : Nat} (hm : m ≠ 0) (hfound : raise n m = some m') : m' ≠ 0 := by
  induction n generalizing m with
  | zero =>
      cases hfound
      exact hm
  | succ n ih =>
      rw [raise] at hfound
      split at hfound
      · exact ih (by omega) hfound
      · cases hfound

end Decimal

namespace Binary64

/-- Whether a number is not zero, but the decimal that stands for it is. -/
def vanishes (x : Binary64) : Bool :=
  !x.isZero && (Decimal.ofBinary64? x).any Decimal.isZero

open Decimal

variable {negative : Bool} {s e : Nat} {hcanonical : Canonical s e}

/-- Numbers below one are traded and fitted. -/
theorem ofBinary64_of_lt (negative : Bool) (hcanonical : Canonical s e) (hs : s ≠ 0)
    (he : e < 1074) (hexponent : (tradeHalves (1074 - e) s (e - 1074)).2 ≤ 0) :
    ofBinary64? (.finite negative s e hcanonical) =
      fitted negative (tradeHalves (1074 - e) s (e - 1074)).1
        (tradeHalves (1074 - e) s (e - 1074)).2 := by
  have hcount : (-((e : Int) - 1074)).toNat = 1074 - e := by omega
  unfold ofBinary64?
  simp only [if_neg hs, if_pos (by omega : (e : Int) - 1074 < 0), hcount]
  generalize tradeHalves (1074 - e) s (e - 1074) = found at hexponent ⊢
  obtain ⟨m, e'⟩ := found
  show (if 0 < e' then _ else _) = _
  rw [if_neg (by omega)]
  rfl

/-- Other numbers are multiplied out and become no zero. -/
theorem isZero_of_large (hs : s ≠ 0) (he : 1074 ≤ e) {d : Decimal}
    (hd : ofBinary64? (.finite negative s e hcanonical) = some d) : d.isZero = false := by
  unfold ofBinary64? at hd
  simp only [if_neg hs, if_neg (by omega : ¬ (e : Int) - 1074 < 0)] at hd
  obtain ⟨⟨m, e'⟩, htrade, hd⟩ := Option.bind_eq_some_iff.mp hd
  obtain ⟨hm, he'⟩ := tradeDoubles_ne_zero hs (by omega) htrade
  have hfitted : ∃ m' : Nat, m' ≠ 0 ∧ fitted negative m' 0 = some d := by
    change (if 0 < e' then _ else _) = some d at hd
    split at hd
    · obtain ⟨_, hraise, hd⟩ := Option.bind_eq_some_iff.mp hd
      obtain ⟨m', hm', rfl⟩ := Option.map_eq_some_iff.mp hraise
      exact ⟨m', raise_ne_zero hm hm', hd⟩
    · obtain rfl : e' = 0 := by omega
      exact ⟨m, hm, hd⟩
  obtain ⟨m', hm', hd⟩ := hfitted
  rw [Bool.eq_false_iff, ne_eq, isZero_of_fitted hd, raiseToScale_of_fits _ _ (by decide)]
  exact hm'

/-- Numbers below one become `m / 10 ^ j` for some `m` and `j`, which is not more and hardly less. -/
theorem exists_fitted (negative : Bool) (hcanonical : Canonical s e) (hs : s ≠ 0) (he : e < 1074) :
    ∃ m j : Nat, ofBinary64? (.finite negative s e hcanonical) = fitted negative m (-j) ∧ m ≠ 0 ∧
      m * unitsPerOne ≤ s * 2 ^ e * 10 ^ j ∧ 99 * (s * 2 ^ e * 10 ^ j) ≤ 100 * (m * unitsPerOne) := by
  have hfitted := ofBinary64_of_lt negative hcanonical hs he
  have hunits := unitsPerOne_split (Nat.le_of_lt he)
  rw [Nat.mul_comm] at hunits
  obtain ⟨n, hn⟩ : ∃ n, n = 1074 - e := ⟨_, rfl⟩
  have hstart : (e : Int) - 1074 = -n := by omega
  have hbound : bound = 2 ^ 96 := rfl
  obtain ⟨t, hexponent, ht, hsome, hhigh, hlow⟩ :=
    traded_tradeHalves (n := n) (by omega) hs (-n)
  rw [← hn, hstart] at hfitted
  rw [← hn] at hunits
  generalize tradeHalves n s (-n) = found at hexponent hsome hhigh hlow hfitted
  obtain ⟨j, rfl⟩ := Nat.exists_eq_add_of_le ht
  have hplaces : found.2 = -j := by omega
  -- The bounds are multiplied out to the same power of ten on both sides.
  have hten : 0 < 10 ^ t := Nat.pow_pos (by decide)
  have hleft : found.1 * (2 ^ (t + j) * 2 ^ e) * 10 ^ t =
      found.1 * 10 ^ t * (2 ^ (t + j) * 2 ^ e) := Nat.mul_right_comm _ _ _
  have hright : s * 2 ^ e * 10 ^ j * 10 ^ t = s * 5 ^ (t + j) * (2 ^ (t + j) * 2 ^ e) := by
    have hpow : 10 ^ j * 10 ^ t = 5 ^ (t + j) * 2 ^ (t + j) := by
      rw [← Nat.pow_add, Nat.add_comm j t, ← Nat.mul_pow]
    rw [Nat.mul_assoc, hpow]
    ac_rfl
  have hshare := ninetyNine_le_of_traded (by omega) hlow
  rw [← hunits]
  refine ⟨found.1, j, ?_, hsome, ?_, ?_⟩
  · rw [hfitted (by omega), hplaces]
  · refine Nat.le_of_mul_le_mul_right ?_ hten
    rw [hleft, hright]
    exact Nat.mul_le_mul_right _ hhigh
  · refine Nat.le_of_mul_le_mul_right ?_ hten
    rw [Nat.mul_assoc, Nat.mul_assoc 100, hleft, hright, ← Nat.mul_assoc 99, ← Nat.mul_assoc 100]
    exact Nat.mul_le_mul_right _ hshare

/-- What is worth a last place of the largest scale or more is not dropped. -/
theorem raiseToScale_ne_zero_of_le {m j : Nat} (hm : m ≠ 0)
    (hle : 99 * 10 ^ j ≤ 100 * (m * 10 ^ 28)) : (raiseToScale j m (-j)).1 ≠ 0 := by
  by_cases hj : j ≤ 28
  · rw [raiseToScale_of_fits _ _ (by omega)]
    exact hm
  · obtain ⟨i, rfl⟩ := Nat.exists_eq_add_of_le (Nat.le_of_not_le hj)
    refine raiseToScale_ne_zero (Nat.le_add_left i 28) ?_
    have hpow : 10 ^ (28 + i) = 10 ^ 28 * 10 ^ i := Nat.pow_add 10 28 i
    omega

/-- What is worth nine tenths of a last place or less is dropped. -/
theorem raiseToScale_eq_zero_of_le {m j : Nat} (hm : m ≠ 0)
    (hle : m * 10 ^ 29 ≤ 9 * 10 ^ j) : ∃ e, raiseToScale j m (-j) = (0, e) ∧ -28 ≤ e ∧ e ≤ 0 := by
  have hj : 28 ≤ j := by
    refine Nat.le_of_not_lt fun hlt => ?_
    have hpow : 10 ^ j ≤ 10 ^ 28 := Nat.pow_le_pow_right (by decide) (Nat.le_of_lt hlt)
    omega
  obtain ⟨i, rfl⟩ := Nat.exists_eq_add_of_le hj
  refine raiseToScale_eq_zero (Nat.le_add_left i 28) ?_
  have hpow : 10 ^ (28 + i) = 10 ^ 28 * 10 ^ i := Nat.pow_add 10 28 i
  omega

/-- Only a float below the least positive decimal vanishes. -/
theorem units_lt_of_vanishes {x : Binary64} (hx : x.vanishes = true) :
    x.units * 10 ^ 28 < unitsPerOne := by
  unfold vanishes at hx
  rw [Bool.and_eq_true, Option.any_eq_true] at hx
  obtain ⟨hsome, d, hd, hzero⟩ := hx
  cases x with
  | nan => cases hd
  | infinity => cases hd
  | finite negative s e hcanonical =>
      have hs : s ≠ 0 := by simpa [isZero] using hsome
      by_cases he : e < 1074
      · obtain ⟨m, j, hfitted, hm, _, hlow⟩ := exists_fitted negative hcanonical hs he
        rw [hfitted] at hd
        have hraise := (isZero_of_fitted hd).mp hzero
        rw [Int.neg_neg, Int.toNat_natCast] at hraise
        -- From 10 to the power -28 on, the digits that are left show in the last place.
        refine Nat.lt_of_not_le fun hlarge => raiseToScale_ne_zero_of_le hm ?_ hraise
        refine Nat.le_of_mul_le_mul_right ?_ unitsPerOne_pos
        calc
          99 * 10 ^ j * unitsPerOne ≤ 99 * 10 ^ j * (s * 2 ^ e * 10 ^ 28) :=
            Nat.mul_le_mul_left _ hlarge
          _ = 99 * (s * 2 ^ e * 10 ^ j) * 10 ^ 28 := by ac_rfl
          _ ≤ 100 * (m * unitsPerOne) * 10 ^ 28 := Nat.mul_le_mul_right _ hlow
          _ = 100 * (m * 10 ^ 28) * unitsPerOne := by
            rw [← Nat.mul_assoc, Nat.mul_right_comm, Nat.mul_assoc 100]
      · rw [isZero_of_large hs (by omega) hd] at hzero
        cases hzero

/-- A float of nine tenths of the least positive decimal or less vanishes. -/
theorem vanishes_of_units_le {x : Binary64} (hfinite : x.isFinite = true) (hx : x.isZero = false)
    (hsmall : x.units * 10 ^ 29 ≤ 9 * unitsPerOne) : x.vanishes = true := by
  cases x with
  | nan => cases hfinite
  | infinity => cases hfinite
  | finite negative s e hcanonical =>
      have hs : s ≠ 0 := by simpa [isZero] using hx
      change s * 2 ^ e * 10 ^ 29 ≤ 9 * unitsPerOne at hsmall
      -- A number with a larger exponent is one at least.
      have he : e < 1074 := by
        refine Nat.lt_of_not_le fun hle => ?_
        have hpow : unitsPerOne ≤ 2 ^ e := by
          rw [unitsPerOne]
          generalize 1074 = places at hle ⊢
          exact Nat.pow_le_pow_right Nat.two_pos hle
        have hunits : unitsPerOne ≤ s * 2 ^ e :=
          Nat.le_trans hpow (Nat.le_mul_of_pos_left _ (Nat.pos_of_ne_zero hs))
        have hpos := unitsPerOne_pos
        generalize unitsPerOne = one at hsmall hunits hpos
        omega
      obtain ⟨m, j, hfitted, hm, hhigh, _⟩ := exists_fitted negative hcanonical hs he
      have hle : m * 10 ^ 29 ≤ 9 * 10 ^ j := by
        refine Nat.le_of_mul_le_mul_right ?_ unitsPerOne_pos
        calc
          m * 10 ^ 29 * unitsPerOne = m * unitsPerOne * 10 ^ 29 := Nat.mul_right_comm _ _ _
          _ ≤ s * 2 ^ e * 10 ^ j * 10 ^ 29 := Nat.mul_le_mul_right _ hhigh
          _ = s * 2 ^ e * 10 ^ 29 * 10 ^ j := Nat.mul_right_comm _ _ _
          _ ≤ 9 * unitsPerOne * 10 ^ j := Nat.mul_le_mul_right _ hsmall
          _ = 9 * 10 ^ j * unitsPerOne := Nat.mul_right_comm _ _ _
      obtain ⟨last, hraise, hlow, hhigh⟩ := raiseToScale_eq_zero_of_le hm hle
      obtain ⟨d, hd, hzero⟩ := fitted_of_raise_zero negative hlow hhigh (e := -j)
        (by rwa [Int.neg_neg, Int.toNat_natCast])
      unfold vanishes
      rw [hfitted, hd, hx]
      exact hzero

end Binary64

end DocQuery.Number
