import DocQuery.Proofs.Number.Binary64.Exact
import DocQuery.Proofs.Number.Decimal.Counterparts
import DocQuery.Proofs.Number.Decimal.Vanishing
import Mathlib.Data.Nat.Factorization.Basic

/-!
# Floats that come back from decimals

A float that is turned into a decimal and back need not be the same float: the decimal keeps no
more digits than 52 bits hold, and no more than 28 of them after the point. This module says for
which floats nothing is lost: whole numbers of any size, and all that have a short decimal
expansion. Trading powers of two is exact for these, no digit is dropped, and on the way back every
step has an exact result that a float can hold. A float that is too small for decimals does not
come back.

Main names:

* `Binary64.returns` — whether a float comes back from its decimal;
* `Binary64.ofBinary64_of_whole`, `Short.ofBinary64_eq` — decimals that are exact;
* `Short.counts_magnitude` — a short decimal as a float;
* `Binary64.returns_of_whole`, `Binary64.returns_of_short`, `Binary64.not_returns_of_vanishes`.
-/

namespace DocQuery.Number

open Decimal

namespace Binary64

/-- Whether a number is that of its decimal, or has none. -/
def returns (x : Binary64) : Bool :=
  match ofBinary64? x with
  | some d => d.toBinary64.equal x
  | none => true

end Binary64

/-! ## Exact decimals -/

namespace Decimal

variable {m n : Nat} {e : Int}

theorem tradeHalves_even (n m : Nat) (e : Int) (t : Nat) :
    tradeHalves (t + n) (m * 2 ^ t) e = tradeHalves n m (e + t) := by
  induction t generalizing e with
  | zero => simp
  | succ t ih =>
      have hdouble : m * 2 ^ (t + 1) = 2 * (m * 2 ^ t) := by
        rw [Nat.pow_succ]
        ac_rfl
      have heven : m * 2 ^ (t + 1) % 2 = 0 := by omega
      have hhalf : m * 2 ^ (t + 1) / 2 = m * 2 ^ t := by omega
      rw [Nat.add_right_comm, tradeHalves, if_pos heven, hhalf, ih]
      congr 1
      omega

/-- An odd number is multiplied by five as long as there is room. -/
theorem tradeHalves_odd (hodd : m % 2 = 1) (hroom : m * 5 ^ n < bound) :
    tradeHalves n m e = (m * 5 ^ n, e) := by
  induction n generalizing m with
  | zero => simp [tradeHalves]
  | succ n ih =>
      have hfive : m * 5 ^ (n + 1) = 5 * m * 5 ^ n := by
        rw [Nat.pow_succ]
        ac_rfl
      have hnext : 5 * m < bound := by
        rw [hfive] at hroom
        exact Nat.lt_of_le_of_lt (Nat.le_mul_of_pos_right (5 * m) (Nat.pow_pos (by decide))) hroom
      rw [hfive] at hroom ⊢
      rw [tradeHalves, if_neg (by omega), if_pos hnext]
      exact ih (by omega) hroom

/-- A number is doubled until there is no room, and then there is no decimal. -/
theorem tradeDoubles_eq (hm : m < bound) :
    tradeDoubles n m n = if m * 2 ^ n < bound then some (m * 2 ^ n, 0) else none := by
  induction n generalizing m with
  | zero => simp [tradeDoubles, hm]
  | succ n ih =>
      have hdouble : m * 2 ^ (n + 1) = 2 * m * 2 ^ n := by
        rw [Nat.pow_succ]
        ac_rfl
      have hexponent : ((n + 1 : Nat) : Int) - 1 = n := by omega
      have hbound : bound = 2 * 2 ^ 95 := rfl
      rw [tradeDoubles, hdouble, hexponent]
      split
      · exact ih (by omega)
      · have hlarge : ¬ 2 * m * 2 ^ n < bound := by
          have hle : 2 * m ≤ 2 * m * 2 ^ n := Nat.le_mul_of_pos_right _ (Nat.two_pow_pos n)
          omega
        rw [if_pos (by omega), if_neg hlarge]

/-- Digits that fit are kept as they are, if the last of them is no zero after the point. -/
theorem fitted_of_fits (negative : Bool) {j : Nat} (hj : j ≤ 28) (hm : j = 0 ∨ m < 2 ^ 52)
    (hlast : j = 0 ∨ m % 10 ≠ 0) : fitted negative m (-(j : Int)) = make? negative m j := by
  have hexcess : dropExcess maxScale m (-(j : Int)) = (m, -(j : Int)) := by
    rw [dropExcess, if_neg (by omega)]
  have htrailing : dropTrailing maxScale m (-(j : Int)) = (m, -(j : Int)) := by
    rw [dropTrailing, if_neg (by omega)]
  unfold fitted
  simp only [raiseToScale_of_fits _ m (by omega : -28 ≤ -(j : Int)), hexcess, htrailing]
  rw [Int.neg_neg, Int.toNat_natCast]

end Decimal

namespace Binary64

variable {x : Binary64} {negative : Bool} {s e : Nat}

theorem two_pow_of_eq {n : Nat} (hn : e = 1074 + n) : 2 ^ e = unitsPerOne * 2 ^ n := by
  rw [hn, unitsPerOne]
  generalize 1074 = places
  exact Nat.pow_add 2 places n

/-- Numbers without a place after the point are multiplied out. -/
theorem ofBinary64_of_le (negative : Bool) (hcanonical : Canonical s e) (hs : s ≠ 0) {n : Nat}
    (hn : e = 1074 + n) :
    ofBinary64? (.finite negative s e hcanonical) =
      if s * 2 ^ n < bound then make? negative (s * 2 ^ n) 0 else none := by
  have hbits : s < 2 ^ 53 := hcanonical.1
  have htrade := tradeDoubles_eq (m := s) (n := n) (Nat.lt_trans hbits (by decide))
  have hexponent : (e : Int) - 1074 = n := by omega
  unfold ofBinary64?
  simp only [if_neg hs, if_neg (by omega : ¬ (e : Int) - 1074 < 0)]
  rw [hexponent, Int.toNat_natCast, htrade]
  split
  · exact fitted_of_fits negative (Nat.zero_le 28) (Or.inl rfl) (Or.inl rfl)
  · rfl

/-- A whole number has the decimal without a fraction, if there is one of that size. -/
theorem ofBinary64_of_whole (negative : Bool) (hcanonical : Canonical s e) {k : Nat} (hs : s ≠ 0)
    (hk : s * 2 ^ e = k * unitsPerOne) :
    ofBinary64? (.finite negative s e hcanonical) =
      if k < bound then make? negative k 0 else none := by
  have hbits : s < 2 ^ 53 := hcanonical.1
  have hfits := fitted_of_fits (m := k) negative (Nat.zero_le 28) (Or.inl rfl) (Or.inl rfl)
  -- A negative binary exponent only takes back factors of two that the significand has.
  by_cases he : e < 1074
  · obtain ⟨n, hn⟩ : ∃ n, n = 1074 - e := ⟨_, rfl⟩
    have hsplit : s = k * 2 ^ n := by
      have hunits := unitsPerOne_split (Nat.le_of_lt he)
      rw [← hn] at hunits
      refine Nat.eq_of_mul_eq_mul_right (Nat.two_pow_pos e) ?_
      rw [hk, ← hunits]
      ac_rfl
    have htrade : tradeHalves (1074 - e) s (e - 1074) = (k, 0) := by
      have heven := tradeHalves_even 0 k (e - 1074) n
      rw [← hsplit, Nat.add_zero] at heven
      rw [← hn, heven, tradeHalves]
      congr 1
      omega
    have hsmall : k < bound := by
      have hle : k ≤ k * 2 ^ n := Nat.le_mul_of_pos_right _ (Nat.two_pow_pos n)
      have hbound : 2 ^ 53 < bound := by decide
      omega
    rw [ofBinary64_of_lt negative hcanonical hs he (Int.le_of_eq (congrArg Prod.snd htrade)), htrade,
      if_pos hsmall]
    exact hfits
  · obtain ⟨n, hn⟩ := Nat.exists_eq_add_of_le (Nat.le_of_not_lt he)
    have hsplit : k = s * 2 ^ n := by
      refine Nat.eq_of_mul_eq_mul_right unitsPerOne_pos ?_
      rw [← hk, two_pow_of_eq hn, Nat.mul_comm unitsPerOne, Nat.mul_assoc]
    rw [ofBinary64_of_le negative hcanonical hs hn, ← hsplit]

theorem ofBinary64_one : ofBinary64? one = some .one := by
  have hunits : 2 ^ 52 * 2 ^ 1022 = 1 * unitsPerOne := by
    rw [Nat.one_mul]
    exact counts_one.units
  exact ofBinary64_of_whole false _ (by decide) hunits

end Binary64

/-! ## Short expansions -/

/-- The odd number `m` with `j` binary digits after the point, which has as many decimal ones, and a
coefficient that a float keeps; `p` is the place of its last digit. -/
structure Short (m j p : Nat) : Prop where
  odd : m % 2 = 1
  digits : j ≠ 0
  places : j + p = 1074
  coefficient_lt : m * 5 ^ j < 2 ^ 52

namespace Short

open Binary64

variable {m j p : Nat}

theorem lt (hshort : Short m j p) : m < 2 ^ 52 :=
  Nat.lt_of_le_of_lt (Nat.le_mul_of_pos_right m (Nat.pow_pos (by decide))) hshort.coefficient_lt

/-- Few digits leave room for few of them after the point. -/
theorem digits_le (hshort : Short m j p) : j ≤ 22 := by
  refine Nat.le_of_not_lt fun hlarge => ?_
  have hodd := hshort.odd
  have hlt := hshort.coefficient_lt
  have hpow : 5 ^ 23 ≤ 5 ^ j := Nat.pow_le_pow_right (by decide) hlarge
  have hle : 5 ^ j ≤ m * 5 ^ j := Nat.le_mul_of_pos_left _ (by omega)
  omega

theorem units_eq (hshort : Short m j p) : 2 ^ j * 2 ^ p = unitsPerOne := by
  have hplaces := hshort.places
  rw [← unitsPerOne_split (by omega : j ≤ 1074), ← hplaces, Nat.add_sub_cancel_left]

/-- Counts of the last place are exact. -/
theorem representable (hshort : Short m j p) {s : Nat} (hs : s < 2 ^ 52) :
    Representable (s * 2 ^ p) := by
  refine representable_of_le (Nat.lt_trans hs (by decide)) ?_
  rw [← hshort.units_eq]
  exact Nat.le_mul_of_pos_left _ (Nat.two_pow_pos j)

/-- A number with a short expansion has the decimal with as many digits after the point. -/
theorem ofBinary64_eq (hshort : Short m j p) (negative : Bool) {s e t : Nat}
    (hcanonical : Canonical s e) (hsplit : s = m * 2 ^ t) (hp : p = t + e) :
    ofBinary64? (.finite negative s e hcanonical) = make? negative (m * 5 ^ j) j := by
  have hodd := hshort.odd
  have hplaces := hshort.places
  have hdigits := hshort.digits
  have hlimit := hshort.digits_le
  have hs : s ≠ 0 := by
    have hpos : 0 < m * 2 ^ t := Nat.mul_pos (by omega) (Nat.two_pow_pos t)
    omega
  have htrade : tradeHalves (1074 - e) s (e - 1074) = (m * 5 ^ j, -(j : Int)) := by
    have heven := tradeHalves_even j m (e - 1074) t
    have hroom : m * 5 ^ j < bound := Nat.lt_trans hshort.coefficient_lt (by decide)
    have hcount : 1074 - e = t + j := by omega
    rw [← hsplit, tradeHalves_odd hodd hroom] at heven
    rw [hcount, heven]
    congr 1
    omega
  -- The coefficient is odd, so it has no decimal zero at its end to be dropped.
  have hlast : m * 5 ^ j % 10 ≠ 0 := by
    have hpow : 5 ^ j % 2 = 1 := by
      rw [Nat.pow_mod]
      simp
    have hproduct : m * 5 ^ j % 2 = 1 := by
      rw [Nat.mul_mod, hodd, hpow]
    omega
  have hexponent : (tradeHalves (1074 - e) s (e - 1074)).2 ≤ 0 := by
    rw [htrade]
    exact Int.neg_nonpos_of_nonneg (Int.natCast_nonneg j)
  rw [ofBinary64_of_lt negative hcanonical hs (by omega) hexponent, htrade]
  exact fitted_of_fits negative (by omega) (Or.inr hshort.coefficient_lt) (Or.inr hlast)

/-- Powers of ten are exact as far as their odd part has 53 bits. -/
theorem counts_power (hshort : Short m j p) :
    Counts (powerOfTen 5 j (.ofInt 10) (.ofInt 1)) (10 ^ j * unitsPerOne) := by
  have hpowers : ∀ scale < 23,
      (powerOfTen 5 scale (.ofInt 10) (.ofInt 1)).isFinite = true ∧
        (powerOfTen 5 scale (.ofInt 10) (.ofInt 1)).isNegative = false ∧
        (powerOfTen 5 scale (.ofInt 10) (.ofInt 1)).units = 10 ^ scale * unitsPerOne := by
    decide +kernel
  obtain ⟨hfinite, hpositive, hunits⟩ := hpowers j (Nat.lt_succ_of_le hshort.digits_le)
  exact ⟨hfinite, hpositive, hunits⟩

theorem counts_ten (hshort : Short m j p) : Counts (ofInt (10 ^ j : Nat)) (10 ^ j * unitsPerOne) := by
  have hten : 10 ^ j < 2 ^ 96 :=
    Nat.lt_of_le_of_lt (Nat.pow_le_pow_right (by decide) hshort.digits_le) (by decide)
  have hfive : 5 ^ j < 2 ^ 53 :=
    Nat.lt_of_le_of_lt (Nat.pow_le_pow_right (by decide) hshort.digits_le) (by decide)
  exact counts_exact (representable_ones hfive (Nat.mul_pow 5 2 j) hten) hten

/-- The digits before the point and those after it make the number. -/
theorem counts_sum (hshort : Short m j p) :
    Counts ((ofInt (m / 2 ^ j : Nat)).add
      ((ofInt (5 ^ j * (m % 2 ^ j) : Nat)).div (ofInt (10 ^ j : Nat)))) (m * 2 ^ p) := by
  have hten : 10 ^ j = 5 ^ j * 2 ^ j := Nat.mul_pow 5 2 j
  have hpos : 0 < 10 ^ j * unitsPerOne := Nat.mul_pos (Nat.pow_pos (by decide)) unitsPerOne_pos
  have hwhole : m / 2 ^ j < 2 ^ 52 := Nat.lt_of_le_of_lt (Nat.div_le_self _ _) hshort.lt
  have hrest : m % 2 ^ j < 2 ^ 52 := Nat.lt_of_le_of_lt (Nat.mod_le _ _) hshort.lt
  have hdigits : 5 ^ j * (m % 2 ^ j) < 2 ^ 52 := by
    refine Nat.lt_of_le_of_lt (Nat.mul_le_mul_left _ (Nat.mod_le m (2 ^ j))) ?_
    rw [Nat.mul_comm]
    exact hshort.coefficient_lt
  have hfraction := (counts_nat (Nat.lt_trans hdigits (by decide))).div_exact hshort.counts_ten hpos
    (hshort.representable hrest) (by
      rw [hten, ← hshort.units_eq]
      ac_rfl)
  refine (counts_nat (Nat.lt_trans hwhole (by decide))).add_exact hfraction
    (hshort.representable hshort.lt) ?_
  conv_rhs => rw [← Nat.div_add_mod m (2 ^ j)]
  rw [← hshort.units_eq, Nat.add_mul]
  ac_rfl

/-- The decimal of a number with a short expansion is worth what the number counts: every step on the
way back has an exact result. -/
theorem counts_magnitude (hshort : Short m j p) {d : Decimal} (hcoefficient : d.coefficient = m * 5 ^ j)
    (hscale : d.scale = j) : Counts d.magnitude64 (m * 2 ^ p) := by
  have hten : 10 ^ j = 5 ^ j * 2 ^ j := Nat.mul_pow 5 2 j
  have hfive : 0 < 5 ^ j := Nat.pow_pos (by decide)
  have hpos : 0 < 10 ^ j * unitsPerOne := Nat.mul_pos (Nat.pow_pos (by decide)) unitsPerOne_pos
  have hwhole : d.coefficient / 10 ^ d.scale = m / 2 ^ j := by
    rw [hcoefficient, hscale, hten, Nat.mul_comm m, Nat.mul_div_mul_left _ _ hfive]
  have hrest : d.coefficient % 10 ^ d.scale = 5 ^ j * (m % 2 ^ j) := by
    rw [hcoefficient, hscale, hten, Nat.mul_comm m, Nat.mul_mod_mul_left]
  have hsome : d.coefficient % 10 ^ d.scale ≠ 0 := by
    rw [hrest]
    refine Nat.mul_ne_zero (Nat.ne_of_gt hfive) fun hnone => ?_
    have hodd := hshort.odd
    have hpow : 2 ∣ 2 ^ j := Nat.pow_dvd_pow 2 (Nat.pos_of_ne_zero hshort.digits)
    have hdvd : 2 ∣ m := Nat.dvd_trans hpow (Nat.dvd_of_mod_eq_zero hnone)
    omega
  -- The number is scaled up to a whole number, and down again.
  have hdigits : m * 5 ^ j < 2 ^ 53 := Nat.lt_trans hshort.coefficient_lt (by decide)
  have hscaled := hshort.counts_sum.mul_exact hshort.counts_power (representable_nat hdigits) (by
    rw [hten, ← hshort.units_eq]
    ac_rfl)
  have hback := (counts_nat hdigits).div_exact hshort.counts_power hpos
    (hshort.representable hshort.lt) (by
      rw [hten, ← hshort.units_eq]
      ac_rfl)
  rw [magnitude_of_rest hsome, hwhole, hrest, hscale]
  unfold roundToWhole
  rw [hscaled.units, roundDiv_mul unitsPerOne_pos]
  exact hback

end Short

namespace Binary64

/-! ## Floats that come back -/

variable {negative : Bool} {s e : Nat} {hcanonical : Canonical s e} {x : Binary64}

/-- A number comes back if its decimal has its sign and is worth what it counts. -/
theorem returns_of_counts {d : Decimal}
    (hd : ofBinary64? (.finite negative s e hcanonical) = some d) (hsign : d.negative = negative)
    (hcounts : Counts d.magnitude64 (s * 2 ^ e)) :
    returns (.finite negative s e hcanonical) = true := by
  obtain ⟨q, hq, hzero, _⟩ := exists_magnitude d
  obtain ⟨hfinite, hsigned⟩ := signedUnits_toBinary64 hq hzero
  have hunits : q = s * 2 ^ e := hq.units.symm.trans hcounts.units
  unfold returns
  rw [hd]
  refine (equal_iff_signedUnits hfinite rfl).mpr ?_
  rw [hsigned, hsign, hunits, signedUnits_finite]

theorem returns_of_scale_zero {k : Nat} (hcoefficient : k < bound) (hk : s * 2 ^ e = k * unitsPerOne)
    (hd : ofBinary64? (.finite negative s e hcanonical) = make? negative k 0) :
    returns (.finite negative s e hcanonical) = true := by
  have hcounts : Counts (.finite false s e hcanonical) (s * 2 ^ e) := ⟨rfl, rfl, rfl⟩
  have hexact : Representable (k * unitsPerOne) :=
    ⟨hk ▸ hcounts.lt_ceiling, s, e, hcanonical.1, hk.symm⟩
  rw [make?, dif_pos ⟨hcoefficient, by decide⟩] at hd
  refine returns_of_counts hd rfl ?_
  rw [magnitude_of_scale_zero rfl, hk]
  exact counts_exact hexact hcoefficient

/-- Whole numbers come back, whatever their size: those too large for a decimal have none. -/
theorem returns_of_whole (hx : x.isFinite = true) {k : Nat} (hk : x.units = k * unitsPerOne) :
    x.returns = true := by
  cases x with
  | nan => cases hx
  | infinity => cases hx
  | finite negative s e hcanonical =>
      by_cases hs : s = 0
      · refine returns_of_scale_zero (k := 0) (by decide) (by rw [hs, Nat.zero_mul, Nat.zero_mul]) ?_
        unfold ofBinary64?
        exact if_pos hs
      · have hd := ofBinary64_of_whole negative hcanonical hs hk
        by_cases hlarge : k < bound
        · rw [if_pos hlarge] at hd
          exact returns_of_scale_zero hlarge hk hd
        · rw [if_neg hlarge] at hd
          unfold returns
          rw [hd]

/-- An odd number of places that are worth a short decimal has a short expansion. -/
theorem short_of_units {m j p c k : Nat} (hodd : m % 2 = 1) (hj : j ≠ 0) (hplaces : j + p = 1074)
    (hc : c < 2 ^ 52) (hunits : m * 2 ^ p * 10 ^ k = c * unitsPerOne) : Short m j p := by
  have hsplit : 2 ^ j * 2 ^ p = unitsPerOne := by
    rw [← unitsPerOne_split (by omega : j ≤ 1074), ← hplaces, Nat.add_sub_cancel_left]
  have hbinary : m * 5 ^ k * 2 ^ k = c * 2 ^ j := by
    refine Nat.eq_of_mul_eq_mul_right (Nat.two_pow_pos p) ?_
    rw [Nat.mul_assoc c, hsplit, ← hunits, show (10 : Nat) = 5 * 2 from rfl, Nat.mul_pow]
    ac_rfl
  have hfive : m * 5 ^ k % 2 = 1 := by
    have hpow : 5 ^ k % 2 = 1 := by
      rw [Nat.pow_mod]
      simp
    rw [Nat.mul_mod, hodd, hpow]
  -- There are no more binary places than decimal ones.
  have hle : j ≤ k := by
    refine Nat.le_of_not_lt fun hlt => ?_
    obtain ⟨i, rfl⟩ := Nat.exists_eq_add_of_le (Nat.succ_le_of_lt hlt)
    have heven : m * 5 ^ k = 2 * (c * 2 ^ i) := by
      refine Nat.eq_of_mul_eq_mul_right (Nat.two_pow_pos k) ?_
      rw [hbinary, Nat.pow_add, Nat.pow_succ]
      ac_rfl
    omega
  obtain ⟨i, rfl⟩ := Nat.exists_eq_add_of_le hle
  have hcoefficient : m * 5 ^ (j + i) * 2 ^ i = c := by
    refine Nat.eq_of_mul_eq_mul_right (Nat.two_pow_pos j) ?_
    rw [← hbinary, Nat.pow_add 2]
    ac_rfl
  refine ⟨hodd, hj, hplaces, Nat.lt_of_le_of_lt ?_ hc⟩
  rw [← hcoefficient, Nat.pow_add, Nat.mul_assoc, Nat.mul_assoc]
  refine Nat.mul_le_mul_left m (Nat.le_mul_of_pos_right _ (Nat.mul_pos ?_ (Nat.two_pow_pos i)))
  exact Nat.pow_pos (by decide)

/-- Numbers that are `c / 10 ^ k` come back if `c` has no more than 52 bits. -/
theorem returns_of_short (hx : x.isFinite = true) {c k : Nat} (hc : c < 2 ^ 52)
    (hunits : x.units * 10 ^ k = c * unitsPerOne) : x.returns = true := by
  cases x with
  | nan => cases hx
  | infinity => cases hx
  | finite negative s e hcanonical =>
      change s * 2 ^ e * 10 ^ k = c * unitsPerOne at hunits
      by_cases hs : s = 0
      · refine returns_of_whole (k := 0) rfl ?_
        rw [units, hs, Nat.zero_mul, Nat.zero_mul]
      -- The odd part of the significand decides: with a place before the point the number is whole.
      obtain ⟨t, m, hm, hpow⟩ := Nat.exists_eq_two_pow_mul_odd hs
      have hodd : m % 2 = 1 := Nat.odd_iff.mp hm
      have hsplit : s = m * 2 ^ t := hpow.trans (Nat.mul_comm _ _)
      have hplace : s * 2 ^ e = m * 2 ^ (t + e) := by
        rw [hsplit, Nat.pow_add, Nat.mul_assoc]
      by_cases hwhole : 1074 ≤ t + e
      · obtain ⟨i, hi⟩ := Nat.exists_eq_add_of_le hwhole
        refine returns_of_whole (k := m * 2 ^ i) rfl ?_
        rw [units, hplace, two_pow_of_eq hi, Nat.mul_comm unitsPerOne, Nat.mul_assoc]
      · obtain ⟨j, hj⟩ := Nat.exists_eq_add_of_le (Nat.le_of_not_le hwhole)
        rw [hplace] at hunits
        have hshort := short_of_units (j := j) hodd (by omega) (by omega) hc hunits
        have hcoefficient : m * 5 ^ j < 2 ^ 96 := Nat.lt_trans hshort.coefficient_lt (by decide)
        have hscale : j ≤ 28 := Nat.le_trans hshort.digits_le (by decide)
        have hd := hshort.ofBinary64_eq negative hcanonical hsplit rfl
        rw [make?, dif_pos ⟨hcoefficient, hscale⟩] at hd
        refine returns_of_counts hd rfl ?_
        rw [hplace]
        exact hshort.counts_magnitude rfl rfl

/-- A float that is too small for decimals does not come back. -/
theorem not_returns_of_vanishes (hx : x.vanishes = true) : x.returns = false := by
  unfold vanishes at hx
  rw [Bool.and_eq_true, Option.any_eq_true, Bool.not_eq_true'] at hx
  obtain ⟨hsome, d, hd, hzero⟩ := hx
  have hfinite : x.isFinite = true := by
    cases x with
    | nan => cases hd
    | infinity => cases hd
    | finite => rfl
  unfold returns
  rw [hd, Bool.eq_false_iff, ne_eq, equal_of_isZero (d.isZero_toBinary64.trans hzero) hfinite, hsome]
  exact Bool.false_ne_true

end Binary64

end DocQuery.Number
