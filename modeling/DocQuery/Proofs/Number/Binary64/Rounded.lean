import DocQuery.Number.Binary64.Arithmetic
import DocQuery.Proofs.Number.Binary64.Nearest

/-!
# Rounding keeps the order

`rounded` is the count of units that rounding makes of a quotient, however large it is. It keeps the
order of quotients with one divisor, and it leaves alone what 53 bits can count; so a result is
bounded by every number that bounds the exact one. From this follow bounds for the operations,
which all round once.

Main names:

* `roundDiv_mono`, `rounded_mono` — rounding keeps the order;
* `rounded_le`, `le_rounded` — bounds that are numbers themselves;
* `round_cases` — what is rounded to a number, and what is too large;
* `Counts` — a number without a sign that counts so many units, with one lemma for each operation.
-/

namespace DocQuery.Number

/-! ## Whole numbers -/

theorem Tie.goesUp_mono {tie : Tie} {q r r' d : Nat} (hr : r ≤ r')
    (hup : tie.goesUp q r d = true) : tie.goesUp q r' d = true := by
  unfold Tie.goesUp at hup ⊢
  by_cases hbelow : 2 * r < d
  · rw [if_pos hbelow] at hup
    cases hup
  by_cases habove : d < 2 * r'
  · rw [if_neg (by omega), if_pos habove]
  · rw [if_neg hbelow, if_neg (by omega)] at hup
    rw [if_neg (by omega), if_neg habove]
    exact hup

theorem goesUp_up_iff (q r d : Nat) : Tie.up.goesUp q r d = true ↔ d ≤ 2 * r := by
  unfold Tie.goesUp
  by_cases hbelow : 2 * r < d
  · rw [if_pos hbelow]
    exact iff_of_false Bool.false_ne_true (by omega)
  · rw [if_neg hbelow, ite_self]
    exact iff_of_true rfl (by omega)

theorem roundDiv_mono (tie : Tie) {n n' : Nat} (d : Nat) (hn : n ≤ n') :
    roundDiv tie n d ≤ roundDiv tie n' d := by
  have hquotient : n / d ≤ n' / d := Nat.div_le_div_right hn
  unfold roundDiv
  rcases Nat.lt_or_eq_of_le hquotient with hlt | heq
  -- Different quotients are apart by at least what rounding adds.
  · split <;> split <;> omega
  · have hrest : n % d ≤ n' % d := by
      have hsplit : d * (n / d) + n % d = n := Nat.div_add_mod n d
      have hsplit' : d * (n' / d) + n' % d = n' := Nat.div_add_mod n' d
      rw [heq] at hsplit
      omega
    rw [heq]
    by_cases hup : tie.goesUp (n' / d) (n % d) d = true
    · refine Nat.le_of_eq ?_
      rw [if_pos hup, if_pos (Tie.goesUp_mono hrest hup)]
    · rw [if_neg hup]
      split <;> omega

theorem roundDiv_mul {tie : Tie} {d : Nat} (hd : 0 < d) (q : Nat) : roundDiv tie (q * d) d = q := by
  unfold roundDiv Tie.goesUp
  rw [Nat.mul_mod_left, Nat.mul_zero, if_pos hd, Nat.mul_div_cancel q hd]
  rfl

theorem roundDiv_le {tie : Tie} {n d q : Nat} (hd : 0 < d) (hn : n ≤ q * d) :
    roundDiv tie n d ≤ q := by
  have hle := roundDiv_mono tie d hn
  rwa [roundDiv_mul hd] at hle

theorem le_roundDiv {tie : Tie} {n d q : Nat} (hd : 0 < d) (hn : q * d ≤ n) :
    q ≤ roundDiv tie n d := by
  have hle := roundDiv_mono tie d hn
  rwa [roundDiv_mul hd] at hle

namespace Binary64

/-! ## Units -/

/-- The exponent of the last place that rounding keeps. -/
def lastPlace (n d : Nat) : Nat :=
  Nat.log2 (n / d) - 52

/-- How many units rounding makes of `n / d`, whatever the size of the result. -/
def rounded (n d : Nat) : Nat :=
  roundDiv .even n (d * 2 ^ lastPlace n d) * 2 ^ lastPlace n d

variable {n n' d : Nat}

theorem lastPlace_mono (d : Nat) (hn : n ≤ n') : lastPlace n d ≤ lastPlace n' d := by
  have hquotient : n / d ≤ n' / d := Nat.div_le_div_right hn
  refine Nat.sub_le_sub_right ?_ 52
  by_cases hzero : n / d = 0
  · rw [hzero, Nat.log2_zero]
    exact Nat.zero_le _
  · have hzero' : n' / d ≠ 0 := fun hzero' => hzero (Nat.le_zero.mp (hzero' ▸ hquotient))
    exact (Nat.le_log2 hzero').mpr (Nat.le_trans (Nat.log2_self_le hzero) hquotient)

/-- The significand has 53 bits at most. -/
theorem significand_le (hd : 0 < d) :
    roundDiv .even n (d * 2 ^ lastPlace n d) ≤ 2 ^ 53 := by
  have hplace : 0 < d * 2 ^ lastPlace n d := Nat.mul_pos hd (Nat.pow_pos (by decide))
  refine roundDiv_le hplace ?_
  have hlt : n / d < 2 ^ (53 + lastPlace n d) := by
    refine Nat.lt_of_lt_of_le Nat.lt_log2_self (Nat.pow_le_pow_right (by decide) ?_)
    unfold lastPlace
    omega
  rw [Nat.div_lt_iff_lt_mul hd, Nat.pow_add, Nat.mul_assoc, Nat.mul_comm _ d] at hlt
  exact Nat.le_of_lt hlt

/-- The significand has 53 bits unless the last place is the least one. -/
theorem le_significand (hd : 0 < d) (hplace : lastPlace n d ≠ 0) :
    2 ^ 52 ≤ roundDiv .even n (d * 2 ^ lastPlace n d) := by
  refine le_roundDiv (Nat.mul_pos hd (Nat.pow_pos (by decide))) ?_
  have hlog : Nat.log2 (n / d) = 52 + lastPlace n d := by
    unfold lastPlace at hplace ⊢
    omega
  have hzero : n / d ≠ 0 := by
    intro hzero
    rw [hzero, Nat.log2_zero] at hlog
    omega
  have hle := Nat.log2_self_le hzero
  rw [hlog, Nat.le_div_iff_mul_le hd, Nat.pow_add, Nat.mul_assoc, Nat.mul_comm _ d] at hle
  exact hle

theorem rounded_mono (hd : 0 < d) (hn : n ≤ n') : rounded n d ≤ rounded n' d := by
  unfold rounded
  rcases Nat.lt_or_eq_of_le (lastPlace_mono d hn) with hlt | heq
  -- The larger number has all of its 53 bits, and the smaller one has no more.
  · calc
      _ ≤ 2 ^ 53 * 2 ^ lastPlace n d := Nat.mul_le_mul_right _ (significand_le hd)
      _ = 2 ^ 52 * 2 ^ (lastPlace n d + 1) := by rw [Nat.pow_succ 2 (lastPlace n d)]; omega
      _ ≤ 2 ^ 52 * 2 ^ lastPlace n' d :=
        Nat.mul_le_mul_left _ (Nat.pow_le_pow_right (by decide) hlt)
      _ ≤ _ := Nat.mul_le_mul_right _ (le_significand hd (by omega))
  · rw [heq]
    exact Nat.mul_le_mul_right _ (roundDiv_mono _ _ hn)

/-- What 53 bits can count is not changed. -/
theorem rounded_exact (hd : 0 < d) {s : Nat} (hs : s < 2 ^ 53) (e : Nat) :
    rounded (s * 2 ^ e * d) d = s * 2 ^ e := by
  have hquotient : s * 2 ^ e * d / d = s * 2 ^ e := Nat.mul_div_cancel _ hd
  -- The number has a last place no higher than `e`, so nothing is rounded away.
  have hplace : lastPlace (s * 2 ^ e * d) d ≤ e := by
    unfold lastPlace
    rw [hquotient]
    by_cases hzero : s * 2 ^ e = 0
    · rw [hzero, Nat.log2_zero]
      omega
    · have hlt : s * 2 ^ e < 2 ^ (53 + e) := by
        rw [Nat.pow_add]
        exact Nat.mul_lt_mul_of_pos_right hs (Nat.pow_pos (by decide))
      have hlog := (Nat.log2_lt hzero).mpr hlt
      omega
  unfold rounded
  generalize lastPlace (s * 2 ^ e * d) d = f at hplace ⊢
  obtain ⟨k, rfl⟩ := Nat.exists_eq_add_of_le hplace
  have hsplit : s * 2 ^ (f + k) = s * 2 ^ k * 2 ^ f := by
    rw [Nat.add_comm, Nat.pow_add, Nat.mul_assoc]
  have hpos : 0 < d * 2 ^ f := Nat.mul_pos hd (Nat.pow_pos (by decide))
  rw [hsplit, Nat.mul_assoc _ (2 ^ f) d, Nat.mul_comm (2 ^ f) d, roundDiv_mul hpos]

theorem rounded_le (hd : 0 < d) {s e : Nat} (hs : s < 2 ^ 53) (hn : n ≤ s * 2 ^ e * d) :
    rounded n d ≤ s * 2 ^ e := by
  have hle := rounded_mono hd hn
  rwa [rounded_exact hd hs] at hle

theorem le_rounded (hd : 0 < d) {s e : Nat} (hs : s < 2 ^ 53) (hn : s * 2 ^ e * d ≤ n) :
    s * 2 ^ e ≤ rounded n d := by
  have hle := rounded_mono hd hn
  rwa [rounded_exact hd hs] at hle

theorem rounded_zero (hd : 0 < d) : rounded 0 d = 0 := by
  have hle := rounded_le (s := 0) (e := 0) (n := 0) hd (by decide) (Nat.zero_le _)
  rw [Nat.zero_mul] at hle
  exact Nat.le_zero.mp hle

theorem unitsPerOne_pos : 0 < unitsPerOne := by
  unfold unitsPerOne
  generalize 1074 = k
  exact Nat.two_pow_pos k

theorem unitsPerOne_split {g : Nat} (hg : g ≤ 1074) : 2 ^ g * 2 ^ (1074 - g) = unitsPerOne := by
  unfold unitsPerOne
  rw [← Nat.pow_add, Nat.add_sub_cancel' hg]

theorem rounded_le_ones (hd : 0 < d) {k : Nat} (hn : n ≤ 2 ^ k * unitsPerOne * d) :
    rounded n d ≤ 2 ^ k * unitsPerOne := by
  have hpow : 2 ^ k * unitsPerOne = 1 * 2 ^ (k + 1074) := by
    rw [Nat.one_mul, Nat.pow_add]
    rfl
  rw [hpow] at hn ⊢
  exact rounded_le hd (by decide) hn

theorem ones_le_rounded (hd : 0 < d) {k : Nat} (hn : 2 ^ k * unitsPerOne * d ≤ n) :
    2 ^ k * unitsPerOne ≤ rounded n d := by
  have hpow : 2 ^ k * unitsPerOne = 1 * 2 ^ (k + 1074) := by
    rw [Nat.one_mul, Nat.pow_add]
    rfl
  rw [hpow] at hn ⊢
  exact le_rounded hd (by decide) hn

/-- A whole number that is not zero is rounded to one at least. -/
theorem one_le_rounded {n : Nat} (hn : n ≠ 0) : unitsPerOne ≤ rounded (n * unitsPerOne) 1 := by
  have hone : 2 ^ 0 * unitsPerOne * 1 ≤ n * unitsPerOne := by
    rw [Nat.mul_one]
    exact Nat.mul_le_mul_right _ (Nat.one_le_iff_ne_zero.mpr hn)
  have hle := ones_le_rounded Nat.one_pos hone
  rw [Nat.pow_zero, Nat.one_mul] at hle
  exact hle

/-! ## Numbers -/

/-- The least power of two that no number reaches, in units. -/
def ceiling : Nat := 2 ^ 1024 * unitsPerOne

theorem ones_lt_ceiling {k : Nat} (hk : k < 1024) : 2 ^ k * unitsPerOne < ceiling := by
  unfold ceiling
  generalize 1024 = top at hk ⊢
  exact Nat.mul_lt_mul_of_pos_right (Nat.pow_lt_pow_right (by decide) hk) unitsPerOne_pos

theorem ceiling_eq {a b : Nat} (hsum : a + b = 2098) : ceiling = 2 ^ a * 2 ^ b := by
  have hpow (c d : Nat) (heq : c + d = a + b) : 2 ^ c * 2 ^ d = 2 ^ a * 2 ^ b := by
    rw [← Nat.pow_add, heq, Nat.pow_add]
  unfold ceiling unitsPerOne
  exact hpow 1024 1074 hsum.symm

/-- What has 53 bits and a place beyond the largest one is too large. -/
theorem ceiling_le {s e : Nat} (hs : 2 ^ 52 ≤ s) (he : 2046 ≤ e) : ceiling ≤ s * 2 ^ e := by
  have hceiling := ceiling_eq (a := 52) (b := 2046) rfl
  rw [hceiling]
  generalize 2046 = top at he ⊢
  exact Nat.mul_le_mul hs (Nat.pow_le_pow_right (by decide) he)

/-- A quotient is rounded to a number, unless it is too large. -/
theorem round_cases (hd : 0 < d) (negative : Bool) :
    (∃ s e hcanonical, round negative n d = .finite negative s e hcanonical ∧
        s * 2 ^ e = rounded n d) ∨
      (round negative n d = .infinity negative ∧ ceiling ≤ rounded n d) := by
  have hhigh := significand_le (n := n) hd
  have hlow := le_significand (n := n) hd
  have hround : round negative n d =
      if roundDiv .even n (d * 2 ^ lastPlace n d) < 2 ^ 53 then
        make negative (roundDiv .even n (d * 2 ^ lastPlace n d)) (lastPlace n d)
      else make negative (2 ^ 52) (lastPlace n d + 1) := rfl
  rw [hround]
  unfold rounded
  generalize roundDiv .even n (d * 2 ^ lastPlace n d) = s at hhigh hlow ⊢
  generalize lastPlace n d = e at hlow ⊢
  -- A significand of 53 bits or fewer is kept, unless the exponent is out of range.
  split
  · rename_i hbits
    by_cases hrange : e ≤ 2045
    · have hcanonical : Canonical s e := ⟨hbits, hrange, by omega⟩
      exact Or.inl ⟨s, e, hcanonical, make_of_canonical hcanonical negative, rfl⟩
    · exact Or.inr ⟨dif_neg fun hcanonical => hrange hcanonical.2.1,
        ceiling_le (hlow (by omega)) (by omega)⟩
  · -- The significand is carried into the next power of two.
    have hpower : s * 2 ^ e = 2 ^ 52 * 2 ^ (e + 1) := by
      rw [show s = 2 ^ 53 by omega, Nat.pow_succ 2 e]
      omega
    rw [hpower]
    by_cases hrange : e + 1 ≤ 2045
    · have hcanonical : Canonical (2 ^ 52) (e + 1) :=
        ⟨by decide, hrange, Or.inr (Nat.le_refl _)⟩
      exact Or.inl ⟨2 ^ 52, e + 1, hcanonical, make_of_canonical hcanonical negative, rfl⟩
    · exact Or.inr ⟨dif_neg fun hcanonical => hrange hcanonical.2.1,
        ceiling_le (Nat.le_refl _) (by omega)⟩

/-- An int is rounded to a number, unless it is too large. -/
theorem ofInt_cases {n : Int} (hn : n ≠ 0) :
    (∃ s e hcanonical, ofInt n = .finite (n < 0) s e hcanonical ∧
        s * 2 ^ e = rounded (n.natAbs * unitsPerOne) 1) ∨
      (ofInt n = .infinity (n < 0) ∧ ceiling ≤ rounded (n.natAbs * unitsPerOne) 1) := by
  unfold ofInt
  rw [if_neg hn]
  split
  · rename_i hlog
    refine Or.inr ⟨rfl, ?_⟩
    unfold ceiling
    generalize 1024 = top at hlog ⊢
    refine ones_le_rounded Nat.one_pos ?_
    rw [Nat.mul_one]
    exact Nat.mul_le_mul_right _
      ((Nat.le_log2 (Int.natAbs_ne_zero.mpr hn)).mp (Nat.le_of_lt hlog))
  · exact round_cases Nat.one_pos _

/-- An int is zero as a float only if it is zero. -/
theorem isZero_ofInt (n : Int) : (ofInt n).isZero = true ↔ n = 0 := by
  by_cases hn : n = 0
  · rw [hn]
    exact iff_of_true rfl rfl
  refine iff_of_false ?_ hn
  rcases ofInt_cases hn with ⟨s, e, hcanonical, hx, hs⟩ | ⟨hx, _⟩
  · have hle := one_le_rounded (Int.natAbs_ne_zero.mpr hn)
    have hpos := unitsPerOne_pos
    rw [hx, isZero, beq_iff_eq]
    rintro rfl
    omega
  · rw [hx]
    exact Bool.false_ne_true

/-! ## Operations on numbers that are not negative -/

/-- A number without a sign that counts so many units. -/
structure Counts (x : Binary64) (m : Nat) : Prop where
  finite : x.isFinite = true
  positive : x.isNegative = false
  units : x.units = m

variable {x y : Binary64} {m k : Nat}

/-- A number without a sign is what its significand and exponent say. -/
theorem Counts.exists_finite (hx : Counts x m) :
    ∃ s e hcanonical, x = .finite false s e hcanonical ∧ s * 2 ^ e = m := by
  cases x with
  | nan => cases hx.finite
  | infinity => cases hx.finite
  | finite negative s e hcanonical =>
      obtain rfl : negative = false := hx.positive
      exact ⟨s, e, hcanonical, rfl, hx.units⟩

theorem Counts.isZero_iff (hx : Counts x m) : x.isZero = true ↔ m = 0 := by
  obtain ⟨s, e, _, rfl, rfl⟩ := hx.exists_finite
  have hpos : 0 < 2 ^ e := Nat.pow_pos (by decide)
  rw [isZero, beq_iff_eq, Nat.mul_eq_zero]
  omega

theorem Counts.isNan (hx : Counts x m) : x.isNan = false := by
  obtain ⟨_, _, _, rfl, _⟩ := hx.exists_finite
  rfl

theorem Counts.lt_ceiling (hx : Counts x m) : m < ceiling := by
  obtain ⟨s, e, hcanonical, _, rfl⟩ := hx.exists_finite
  have hceiling := ceiling_eq (a := 53) (b := 2045) rfl
  have hrange : e ≤ 2045 := hcanonical.2.1
  rw [hceiling]
  generalize 2045 = top at hrange ⊢
  exact Nat.mul_lt_mul_of_lt_of_le hcanonical.1 (Nat.pow_le_pow_right (by decide) hrange)
    (Nat.two_pow_pos top)

/-- A number that bounds a quotient from below bounds what it is rounded to. -/
theorem Counts.le_rounded (hx : Counts x m) (hd : 0 < d) (hn : m * d ≤ n) : m ≤ rounded n d := by
  obtain ⟨s, e, hcanonical, _, rfl⟩ := hx.exists_finite
  exact Binary64.le_rounded hd hcanonical.1 hn

/-- The same from above, where the number may be doubled so often. -/
theorem Counts.rounded_le (hx : Counts x m) (hd : 0 < d) {j : Nat} (hn : n ≤ 2 ^ j * m * d) :
    rounded n d ≤ 2 ^ j * m := by
  obtain ⟨s, e, hcanonical, _, rfl⟩ := hx.exists_finite
  have hdouble : 2 ^ j * (s * 2 ^ e) = s * 2 ^ (j + e) := by
    rw [Nat.pow_add, Nat.mul_left_comm]
  rw [hdouble] at hn ⊢
  exact Binary64.rounded_le hd hcanonical.1 hn

theorem counts_zero : Counts (zero false) 0 := ⟨rfl, rfl, Nat.zero_mul _⟩

theorem counts_round (hd : 0 < d) (hrange : rounded n d < ceiling) :
    Counts (round false n d) (rounded n d) := by
  rcases round_cases (n := n) hd false with ⟨s, e, hcanonical, hround, hs⟩ | ⟨_, hlarge⟩
  · rw [hround]
    exact ⟨rfl, rfl, hs⟩
  · omega

theorem counts_ofInt {n k : Nat} (hk : k < 1024) (hn : n ≤ 2 ^ k) :
    Counts (ofInt n) (rounded (n * unitsPerOne) 1) := by
  have hrange : rounded (n * unitsPerOne) 1 < ceiling := by
    refine Nat.lt_of_le_of_lt (rounded_le_ones (k := k) Nat.one_pos ?_) (ones_lt_ceiling hk)
    rw [Nat.mul_one]
    exact Nat.mul_le_mul_right _ hn
  by_cases hzero : n = 0
  · rw [hzero, Nat.zero_mul, rounded_zero Nat.one_pos]
    exact counts_zero
  have hsign : decide ((n : Int) < 0) = false := decide_eq_false (by omega)
  rcases ofInt_cases (n := n) (by omega) with ⟨s, e, hcanonical, hx, hs⟩ | ⟨_, hlarge⟩
  · rw [hx, hsign]
    exact ⟨rfl, rfl, hs⟩
  · rw [Int.natAbs_natCast] at hlarge
    omega

theorem Counts.add (hx : Counts x m) (hy : Counts y k) (hrange : rounded (m + k) 1 < ceiling) :
    Counts (x.add y) (rounded (m + k) 1) := by
  have hadd : x.add y = ofSignedUnits false ((m : Int) + k) 1 := by
    obtain ⟨s, e, _, rfl, rfl⟩ := hx.exists_finite
    obtain ⟨s', e', _, rfl, rfl⟩ := hy.exists_finite
    rfl
  rw [hadd]
  unfold ofSignedUnits
  split
  · rename_i hzero
    have hsum : m + k = 0 := by omega
    rw [hsum, rounded_zero Nat.one_pos]
    exact counts_zero
  · have hsign : decide ((m : Int) + k < 0) = false := decide_eq_false (by omega)
    have habs : ((m : Int) + k).natAbs = m + k := by omega
    rw [hsign, habs]
    exact counts_round Nat.one_pos hrange

theorem Counts.mul (hx : Counts x m) (hy : Counts y k)
    (hrange : rounded (m * k) unitsPerOne < ceiling) :
    Counts (x.mul y) (rounded (m * k) unitsPerOne) := by
  have hmul : x.mul y = round false (m * k) unitsPerOne := by
    unfold Binary64.mul
    simp [hx.isNan, hy.isNan, hx.finite, hy.finite, hx.positive, hy.positive, hx.units, hy.units]
  rw [hmul]
  exact counts_round unitsPerOne_pos hrange

theorem Counts.div (hx : Counts x m) (hy : Counts y k) (hk : 0 < k)
    (hrange : rounded (m * unitsPerOne) k < ceiling) :
    Counts (x.div y) (rounded (m * unitsPerOne) k) := by
  have hzero : y.isZero = false := by
    rw [Bool.eq_false_iff, ne_eq, hy.isZero_iff]
    omega
  have hdiv : x.div y = ofRatio (x.isNegative != y.isNegative) x.units y.units := by
    obtain ⟨s, e, _, rfl, _⟩ := hx.exists_finite
    obtain ⟨s', e', _, rfl, _⟩ := hy.exists_finite
    unfold Binary64.div
    simp [hzero]
  rw [hx.positive, hy.positive, hx.units, hy.units] at hdiv
  rw [hdiv]
  exact counts_round hk hrange

end Binary64

end DocQuery.Number
