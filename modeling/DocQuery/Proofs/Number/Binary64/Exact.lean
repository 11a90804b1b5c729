import DocQuery.Proofs.Number.Binary64.Rounded

/-!
# Operations with exact results

Where the exact result of an operation is a number, it is the result. So nothing is lost in a product
or a quotient with one, or in a sum with zero, except the sign of a zero; and numbers are compared by
what they count, whatever the sign of a zero.

Main names:

* `equal_iff_signedUnits`, `equal_of_isZero` — when numbers are equal;
* `mul_one_eq_self`, `div_one_eq_self`, `equal_add_zero` — operations that change nothing;
* `Representable` — what numbers can count;
* `counts_exact`, `Counts.add_exact`, `Counts.mul_exact`, `Counts.div_exact` — exact results.
-/

namespace DocQuery.Number.Binary64

variable {x y : Binary64}

/-! ## Equal numbers -/

theorem equal_iff_signedUnits (hx : x.isFinite = true) (hy : y.isFinite = true) :
    x.equal y = true ↔ x.signedUnits = y.signedUnits := by
  cases x with
  | nan => cases hx
  | infinity => cases hx
  | finite a s e hcanonical =>
      cases y with
      | nan => cases hy
      | infinity => cases hy
      | finite b t f hcanonical' =>
          unfold equal compare?
          rw [beq_iff_eq, Option.some.injEq, Int.compare_eq_eq]

theorem equal_self (hx : x.isFinite = true) : x.equal x = true :=
  (equal_iff_signedUnits hx hx).mpr rfl

theorem signedUnits_finite (negative : Bool) {s e : Nat} (hcanonical : Canonical s e) :
    signedUnits (.finite negative s e hcanonical) =
      if negative then -((s * 2 ^ e : Nat) : Int) else (s * 2 ^ e : Nat) := rfl

theorem isFinite_of_isZero (hx : x.isZero = true) : x.isFinite = true := by
  cases x with
  | finite => rfl
  | _ => cases hx

theorem isZero_iff_signedUnits (hx : x.isFinite = true) :
    x.isZero = true ↔ x.signedUnits = 0 := by
  cases x with
  | nan => cases hx
  | infinity => cases hx
  | finite negative s e hcanonical =>
      have hpos : 0 < 2 ^ e := Nat.two_pow_pos e
      have hunits : s * 2 ^ e = 0 ↔ s = 0 := by
        rw [Nat.mul_eq_zero]
        omega
      rw [isZero, beq_iff_eq, ← hunits, signedUnits_finite]
      split <;> omega

/-- A zero equals the zeros of both signs only. -/
theorem equal_of_isZero (hx : x.isZero = true) (hy : y.isFinite = true) :
    x.equal y = true ↔ y.isZero = true := by
  have hfinite := isFinite_of_isZero hx
  rw [equal_iff_signedUnits hfinite hy, (isZero_iff_signedUnits hfinite).mp hx,
    isZero_iff_signedUnits hy]
  exact eq_comm

/-! ## Operations that change nothing -/

/-- The number one. -/
def one : Binary64 := .finite false (2 ^ 52) 1022 (by decide)

theorem counts_one : Counts one unitsPerOne :=
  ⟨rfl, rfl, (Nat.pow_add 2 52 1022).symm⟩

/-- What a number counts is rounded to the number itself. -/
theorem round_units {d : Nat} (hd : 0 < d) (negative : Bool) {s e : Nat}
    (hcanonical : Canonical s e) :
    round negative (s * 2 ^ e * d) d = .finite negative s e hcanonical := by
  refine round_of_near hcanonical hd ?_ negative
  have hplace : 0 < d * 2 ^ e := Nat.mul_pos hd (Nat.two_pow_pos e)
  have hreach : 1 * (d * 2 ^ e) ≤ reach s e * (d * 2 ^ e) := by
    refine Nat.mul_le_mul_right _ ?_
    unfold reach
    split <;> decide
  have hunits : s * 2 ^ e * d = s * (d * 2 ^ e) := by ac_rfl
  rw [Near, hunits]
  omega

/-- A finite number times one is rounded to itself. -/
theorem mul_one_eq_self (hx : x.isFinite = true) : x.mul one = x := by
  cases x with
  | nan => cases hx
  | infinity => cases hx
  | finite negative s e hcanonical =>
      have hround := round_units unitsPerOne_pos negative hcanonical
      unfold mul
      rw [counts_one.isNan, counts_one.finite, counts_one.positive, counts_one.units]
      simpa [isNan, isFinite, isNegative, units] using hround

theorem div_one_eq_self (hx : x.isFinite = true) : x.div one = x := by
  obtain ⟨s', e', hcanonical', hone, hunits⟩ := counts_one.exists_finite
  have hzero : one.isZero = false := rfl
  cases x with
  | nan => cases hx
  | infinity => cases hx
  | finite negative s e hcanonical =>
      have hround := round_units unitsPerOne_pos negative hcanonical
      rw [hone] at hzero ⊢
      simpa [div, hzero, isNegative, ofRatio, units, hunits] using hround

/-- A sum with zero is the number, but for the sign of a zero. -/
theorem equal_add_zero (hx : x.isFinite = true) (sign : Bool) :
    (x.add (zero sign)).equal x = true := by
  cases x with
  | nan => cases hx
  | infinity => cases hx
  | finite negative s e hcanonical =>
      have hsum : (finite negative s e hcanonical).add (zero sign) =
          ofSignedUnits (negative && sign) (signedUnits (.finite negative s e hcanonical)) 1 := by
        have hzero : (zero sign).signedUnits = 0 := by cases sign <;> rfl
        -- Neither zero adds a unit, so the sum is rounded from the units of the number.
        show ofSignedUnits _ (_ + (zero sign).signedUnits) 1 = _
        rw [hzero, Int.add_zero]
      rw [hsum]
      unfold ofSignedUnits
      split
      · rename_i hnone
        -- A sum of no units is a zero, and so was the number; the signs of zeros do not matter.
        exact (equal_of_isZero rfl hx).mpr ((isZero_iff_signedUnits hx).mpr hnone)
      · rename_i hsome
        have habs : (signedUnits (.finite negative s e hcanonical)).natAbs = s * 2 ^ e := by
          cases negative
          · exact Int.natAbs_natCast _
          · exact (Int.natAbs_neg _).trans (Int.natAbs_natCast _)
        have hsign : decide (signedUnits (.finite negative s e hcanonical) < 0) = negative := by
          rw [signedUnits_finite] at hsome ⊢
          cases negative
          · exact decide_eq_false (by simp only [Bool.false_eq_true, if_false]; omega)
          · simp only [if_true] at hsome ⊢
            exact decide_eq_true (by omega)
        -- Units with the sign put back round to the number that they come from.
        have hround := round_units Nat.one_pos negative hcanonical
        rw [Nat.mul_one] at hround
        rw [habs, hsign, hround]
        exact equal_self hx

/-! ## Exact results -/

/-- What a number can count: 53 bits and zeros after them, within the range. -/
def Representable (v : Nat) : Prop :=
  v < ceiling ∧ ∃ s e, s < 2 ^ 53 ∧ v = s * 2 ^ e

variable {m k v d : Nat}

theorem Representable.rounded_eq (hv : Representable v) (hd : 0 < d) : rounded (v * d) d = v := by
  obtain ⟨_, s, e, hs, rfl⟩ := hv
  exact rounded_exact hd hs e

/-- Parts of a last place that are worth less than the largest numbers. -/
theorem representable_of_le {s e : Nat} (hs : s < 2 ^ 53) (he : 2 ^ e ≤ unitsPerOne) :
    Representable (s * 2 ^ e) := by
  refine ⟨?_, s, e, hs, rfl⟩
  exact Nat.lt_of_le_of_lt (Nat.mul_le_mul (Nat.le_of_lt hs) he) (ones_lt_ceiling (by decide))

/-- Whole numbers of 53 bits and zeros after them. -/
theorem representable_ones {n s e : Nat} (hs : s < 2 ^ 53) (hn : n = s * 2 ^ e)
    (hrange : n < 2 ^ 96) : Representable (n * unitsPerOne) := by
  refine ⟨?_, s, e + 1074, hs, ?_⟩
  · refine Nat.lt_of_le_of_lt ?_ (ones_lt_ceiling (by decide : 96 < 1024))
    exact Nat.mul_le_mul_right _ (Nat.le_of_lt hrange)
  · rw [hn, unitsPerOne, Nat.mul_assoc]
    generalize 1074 = places
    rw [← Nat.pow_add]

theorem representable_nat {n : Nat} (hn : n < 2 ^ 53) : Representable (n * unitsPerOne) :=
  representable_ones (e := 0) hn (Nat.mul_one n).symm (Nat.lt_trans hn (by decide))

theorem counts_exact {n : Nat} (hv : Representable (n * unitsPerOne)) (hrange : n < 2 ^ 96) :
    Counts (ofInt n) (n * unitsPerOne) := by
  have hcounts := counts_ofInt (by decide) (Nat.le_of_lt hrange)
  have hround := hv.rounded_eq Nat.one_pos
  rw [Nat.mul_one] at hround
  rwa [hround] at hcounts

theorem counts_nat {n : Nat} (hn : n < 2 ^ 53) : Counts (ofInt n) (n * unitsPerOne) :=
  counts_exact (representable_nat hn) (Nat.lt_trans hn (by decide))

theorem Counts.add_exact (hx : Counts x m) (hy : Counts y k) (hv : Representable v)
    (hsum : m + k = v) : Counts (x.add y) v := by
  have hround := hv.rounded_eq Nat.one_pos
  rw [Nat.mul_one, ← hsum] at hround
  have hadd := hx.add hy (by rw [hround, hsum]; exact hv.1)
  rwa [hround, hsum] at hadd

theorem Counts.mul_exact (hx : Counts x m) (hy : Counts y k) (hv : Representable v)
    (hproduct : m * k = v * unitsPerOne) : Counts (x.mul y) v := by
  have hround := hv.rounded_eq unitsPerOne_pos
  rw [← hproduct] at hround
  have hmul := hx.mul hy (by rw [hround]; exact hv.1)
  rwa [hround] at hmul

theorem Counts.div_exact (hx : Counts x m) (hy : Counts y k) (hk : 0 < k) (hv : Representable v)
    (hquotient : m * unitsPerOne = v * k) : Counts (x.div y) v := by
  have hround := hv.rounded_eq hk
  rw [← hquotient] at hround
  have hdiv := hx.div hy hk (by rw [hround]; exact hv.1)
  rwa [hround] at hdiv

end DocQuery.Number.Binary64
