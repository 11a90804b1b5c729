import DocQuery.Number.Binary64.Shortest

/-!
# The interval of a double precision number

Every quotient in the interval of a number rounds to that number. The interval reaches half a
place up and down, and its ends belong to it if the significand is even; below a power of two the
places are half as wide, so that the interval reaches only a quarter of a place down, and what
lies there is rounded in the narrower places.

Main names:

* `roundDiv_even` — quotients near a whole number;
* `round_of_near` — quotients near a number;
* `Scientific.Same` — two spellings of one decimal number;
* `ofScientific_of_holds` — a decimal number in the interval is read as the number;
* `holds_shortest` — the fewest digits lie in the interval.
-/

namespace DocQuery.Number

theorem goesUp_even_iff (q r d : Nat) :
    Tie.even.goesUp q r d = true ↔ d < 2 * r ∨ 2 * r = d ∧ q % 2 = 1 := by
  unfold Tie.goesUp
  by_cases hbelow : 2 * r < d
  · rw [if_pos hbelow]
    constructor
    · intro hfalse
      cases hfalse
    · omega
  rw [if_neg hbelow]
  by_cases habove : d < 2 * r
  · rw [if_pos habove]
    exact ⟨fun _ => Or.inl habove, fun _ => rfl⟩
  · rw [if_neg habove, beq_iff_eq]
    omega

/-- A quotient half a unit or less from a whole number; half a unit counts only if the whole
number is even. -/
theorem roundDiv_even {n d q : Nat} (hd : 0 < d)
    (hlow : 2 * (q * d) < 2 * n + d ∨ 2 * (q * d) = 2 * n + d ∧ q % 2 = 0)
    (hhigh : 2 * n < 2 * (q * d) + d ∨ 2 * n = 2 * (q * d) + d ∧ q % 2 = 0) :
    roundDiv .even n d = q := by
  have hn : d * (n / d) + n % d = n := Nat.div_add_mod n d
  have hr : n % d < d := Nat.mod_lt n hd
  unfold roundDiv
  simp only [goesUp_even_iff]
  generalize n / d = a at hn ⊢
  generalize n % d = r at hn hr ⊢
  rw [Nat.mul_comm] at hn
  -- The quotient is `q` and is not rounded up, or it is one below and is; all else is too far away.
  rcases Nat.lt_trichotomy a q with hlt | heq | hgt
  · obtain ⟨k, rfl⟩ := Nat.exists_eq_add_of_lt hlt
    have hq : (a + k + 1) * d = a * d + k * d + d := by
      rw [Nat.add_mul, Nat.add_mul, Nat.one_mul]
    have hk : k = 0 := by
      by_cases hzero : k = 0
      · exact hzero
      · have hle : d ≤ k * d := Nat.le_mul_of_pos_left d (Nat.pos_of_ne_zero hzero)
        omega
    subst hk
    rw [Nat.zero_mul] at hq
    rw [if_pos (by omega)]
  · subst heq
    rw [if_neg (by omega)]
  · obtain ⟨k, rfl⟩ := Nat.exists_eq_add_of_lt hgt
    have ha : (q + k + 1) * d = q * d + k * d + d := by
      rw [Nat.add_mul, Nat.add_mul, Nat.one_mul]
    omega

namespace Binary64

theorem make_of_canonical {s e : Nat} (hcanonical : Canonical s e) (negative : Bool) :
    make negative s e = .finite negative s e hcanonical := by
  unfold make
  rw [dif_pos hcanonical]

/-- The exponent that rounding takes: the quotient has 53 bits before the point. -/
theorem log2_quotient {n d e : Nat} (hd : 0 < d) (hlow : 2 ^ 52 * (d * 2 ^ e) ≤ n)
    (hhigh : n < 2 ^ 53 * (d * 2 ^ e)) : Nat.log2 (n / d) - 52 = e := by
  have hlow' : 2 ^ (52 + e) ≤ n / d := by
    rw [Nat.le_div_iff_mul_le hd, Nat.pow_add, Nat.mul_assoc, Nat.mul_comm (2 ^ e)]
    exact hlow
  have hhigh' : n / d < 2 ^ (52 + e + 1) := by
    rw [Nat.div_lt_iff_lt_mul hd, show 52 + e + 1 = 53 + e by omega, Nat.pow_add, Nat.mul_assoc,
      Nat.mul_comm (2 ^ e)]
    exact hhigh
  have hpos : n / d ≠ 0 := by
    have hpow : 0 < 2 ^ (52 + e) := Nat.pow_pos (by decide)
    omega
  rw [(Nat.log2_eq_iff hpos).mpr ⟨hlow', hhigh'⟩]
  omega

/-- Below the first power of two that has 53 bits the places no longer get narrower. -/
theorem log2_small {n d : Nat} (hd : 0 < d) (hhigh : n < 2 ^ 52 * d) :
    Nat.log2 (n / d) - 52 = 0 := by
  by_cases hzero : n / d = 0
  · rw [hzero, Nat.log2_zero]
  · have hlt : n / d < 2 ^ 52 := by
      rw [Nat.div_lt_iff_lt_mul hd]
      exact hhigh
    have hlog := (Nat.log2_lt hzero).mpr hlt
    omega

/-- How far the interval of a number reaches down, in quarters of a place. -/
abbrev reach (s e : Nat) : Nat :=
  if s = 2 ^ 52 ∧ e ≠ 0 then 1 else 2

theorem reach_le (s e : Nat) : reach s e ≤ 2 := by
  unfold reach
  split
  · exact Nat.le_succ 1
  · exact Nat.le_refl 2

/-- A quotient is near a number: no farther away than its interval reaches, and closer if the
significand is odd. -/
def Near (s e n d : Nat) : Prop :=
  4 * (s * (d * 2 ^ e)) ≤ 4 * n + reach s e * (d * 2 ^ e) ∧
    4 * n ≤ 4 * (s * (d * 2 ^ e)) + 2 * (d * 2 ^ e) ∧
    (s % 2 = 1 → 4 * (s * (d * 2 ^ e)) < 4 * n + reach s e * (d * 2 ^ e) ∧
      4 * n < 4 * (s * (d * 2 ^ e)) + 2 * (d * 2 ^ e))

/-- What lies a quarter of a place or less below a power of two is rounded in narrower places, and
rounds up to the power. -/
theorem round_below_power {n d f : Nat} (hd : 0 < d) (hrange : f + 1 ≤ 2045)
    (hlow : 2 * (2 ^ 53 * (d * 2 ^ f)) ≤ 2 * n + d * 2 ^ f) (hhigh : n < 2 ^ 53 * (d * 2 ^ f))
    (negative : Bool) :
    round negative n d =
      .finite negative (2 ^ 52) (f + 1) ⟨by decide, hrange, Or.inr (Nat.le_refl _)⟩ := by
  have hplace : 0 < d * 2 ^ f := Nat.mul_pos hd (Nat.pow_pos (by decide))
  have hexponent : Nat.log2 (n / d) - 52 = f := log2_quotient hd (by omega) hhigh
  have hrounded : roundDiv .even n (d * 2 ^ f) = 2 ^ 53 := by
    refine roundDiv_even hplace ?_ (Or.inl (by omega))
    rcases Nat.lt_or_eq_of_le hlow with hlt | heq
    · exact Or.inl hlt
    · exact Or.inr ⟨heq, by decide⟩
  unfold round
  simp only [hexponent, hrounded]
  rw [if_neg (Nat.lt_irrefl _)]
  exact make_of_canonical _ negative

/-- Elsewhere the places are those of the number. -/
theorem log2_of_near {s e n d : Nat} (hbits : s < 2 ^ 53) (hd : 0 < d) (hnear : Near s e n d)
    (hwide : n < 2 ^ 52 * (d * 2 ^ e) → e = 0) : Nat.log2 (n / d) - 52 = e := by
  obtain ⟨_, hhigh, hodd⟩ := hnear
  have hplace : 0 < d * 2 ^ e := Nat.mul_pos hd (Nat.pow_pos (by decide))
  by_cases hsmall : n < 2 ^ 52 * (d * 2 ^ e)
  · obtain rfl := hwide hsmall
    rw [Nat.pow_zero, Nat.mul_one] at hsmall
    exact log2_small hd hsmall
  · refine log2_quotient hd (by omega) ?_
    -- The largest significand is odd, so its interval ends before the next power.
    by_cases hlargest : s = 2 ^ 53 - 1
    · have hstrict := (hodd (by omega)).2
      have hproduct : s * (d * 2 ^ e) + d * 2 ^ e = 2 ^ 53 * (d * 2 ^ e) := by
        have hsucc : 2 ^ 53 = s + 1 := by omega
        rw [hsucc, Nat.add_mul, Nat.one_mul]
      omega
    · have hle : (s + 2) * (d * 2 ^ e) ≤ 2 ^ 53 * (d * 2 ^ e) :=
        Nat.mul_le_mul_right _ (by omega)
      rw [Nat.add_mul] at hle
      omega

/-- Quotients near a number round to it. -/
theorem round_of_near {s e n d : Nat} (hcanonical : Canonical s e) (hd : 0 < d)
    (hnear : Near s e n d) (negative : Bool) :
    round negative n d = .finite negative s e hcanonical := by
  have hplace : 0 < d * 2 ^ e := Nat.mul_pos hd (Nat.pow_pos (by decide))
  have hreach : reach s e * (d * 2 ^ e) ≤ 2 * (d * 2 ^ e) :=
    Nat.mul_le_mul_right _ (reach_le s e)
  -- Just below a power of two the places of the number are half as wide as those of `s`, so the
  -- significand is found one place further down and carried.
  by_cases hnarrow : n < 2 ^ 52 * (d * 2 ^ e) ∧ e ≠ 0
  · obtain ⟨hbelow, he⟩ := hnarrow
    have hnormal : 2 ^ 52 ≤ s := hcanonical.2.2.resolve_left he
    have hpower : s = 2 ^ 52 := by
      rcases Nat.lt_or_eq_of_le hnormal with hlt | heq
      · have hlow := hnear.1
        have hle : (2 ^ 52 + 1) * (d * 2 ^ e) ≤ s * (d * 2 ^ e) := Nat.mul_le_mul_right _ hlt
        rw [Nat.add_mul, Nat.one_mul] at hle
        omega
      · exact heq.symm
    obtain ⟨f, rfl⟩ := Nat.exists_eq_add_one_of_ne_zero he
    subst hpower
    have hdouble : d * 2 ^ (f + 1) = 2 * (d * 2 ^ f) := by
      rw [Nat.pow_succ, ← Nat.mul_assoc, Nat.mul_comm]
    have hlow : 4 * (2 ^ 52 * (d * 2 ^ (f + 1))) ≤ 4 * n + 1 * (d * 2 ^ (f + 1)) := by
      have hone : reach (2 ^ 52) (f + 1) = 1 := if_pos ⟨rfl, Nat.succ_ne_zero f⟩
      rw [← hone]
      exact hnear.1
    rw [hdouble] at hlow hbelow
    exact round_below_power hd hcanonical.2.1 (by omega) (by omega) negative
  -- Everywhere else the places are the same, and the significand is rounded to `s`.
  · have hexponent : Nat.log2 (n / d) - 52 = e := by
      refine log2_of_near hcanonical.1 hd hnear fun hsmall => ?_
      by_cases hzero : e = 0
      · exact hzero
      · exact absurd ⟨hsmall, hzero⟩ hnarrow
    have hrounded : roundDiv .even n (d * 2 ^ e) = s := by
      obtain ⟨hlow, hhigh, hodd⟩ := hnear
      rcases Nat.mod_two_eq_zero_or_one s with heven | hone
      · exact roundDiv_even hplace (by omega) (by omega)
      · obtain ⟨hlow', hhigh'⟩ := hodd hone
        exact roundDiv_even hplace (Or.inl (by omega)) (Or.inl (by omega))
    unfold round
    simp only [hexponent, hrounded]
    rw [if_pos hcanonical.1]
    exact make_of_canonical hcanonical negative

/-! ## Decimal numbers in the interval -/

/-- A decimal number in the interval of a number is near it. -/
theorem near_of_holds {s e : Nat} {x : Scientific} (hs : s ≠ 0)
    (hholds : (interval s e).holds x = true) :
    Near s e ((scaleByPower x.digits x.exponent).1 * unitsPerOne)
      (scaleByPower x.digits x.exponent).2 := by
  unfold Interval.holds at hholds
  generalize scaleByPower x.digits x.exponent = scaled at hholds ⊢
  obtain ⟨p, q⟩ := scaled
  have hreach : reach s e ≤ 2 := reach_le s e
  -- The bounds of the interval are in quarters of units, as the halves of narrow places need them.
  have hlower : (interval s e).lower * q + reach s e * (q * 2 ^ e) = 4 * (s * (q * 2 ^ e)) := by
    show (4 * s - reach s e) * 2 ^ e * q + reach s e * (q * 2 ^ e) = _
    rw [Nat.mul_assoc, Nat.mul_comm (2 ^ e) q, ← Nat.add_mul, Nat.sub_add_cancel (by omega),
      Nat.mul_assoc]
  have hupper : (interval s e).upper * q = 4 * (s * (q * 2 ^ e)) + 2 * (q * 2 ^ e) := by
    show (4 * s + 2) * 2 ^ e * q = _
    rw [Nat.mul_assoc, Nat.mul_comm (2 ^ e) q, Nat.add_mul, Nat.mul_assoc]
  have hquarters : p * quartersPerOne = 4 * (p * unitsPerOne) := by
    unfold quartersPerOne
    rw [← Nat.mul_assoc, Nat.mul_comm p 4, Nat.mul_assoc]
  simp only [hquarters, hupper] at hholds
  show Near s e (p * unitsPerOne) q
  unfold Near
  generalize p * unitsPerOne = n at hholds ⊢
  cases hclosed : (interval s e).closed with
  | true =>
      have heven : s % 2 = 0 := of_decide_eq_true hclosed
      simp only [hclosed, if_true, Bool.and_eq_true, decide_eq_true_eq] at hholds
      omega
  | false =>
      simp only [hclosed, Bool.false_eq_true, if_false, Bool.and_eq_true,
        decide_eq_true_eq] at hholds
      omega

/-! ## Spellings of one decimal number -/

/-- Two spellings of one decimal number. -/
def Scientific.Same (x y : Scientific) : Prop :=
  (scaleByPower x.digits x.exponent).1 * (scaleByPower y.digits y.exponent).2 =
    (scaleByPower y.digits y.exponent).1 * (scaleByPower x.digits x.exponent).2

theorem scaleByPower_pos (n : Nat) (k : Int) : 0 < (scaleByPower n k).2 := by
  unfold scaleByPower
  split
  · exact Nat.one_pos
  · exact Nat.pow_pos (by decide)

/-- Zeros at the end of the digits count as powers of ten. -/
theorem Scientific.same_shift (n j : Nat) (k : Int) :
    Scientific.Same ⟨n * 10 ^ j, k⟩ ⟨n, k + j⟩ := by
  unfold Scientific.Same scaleByPower
  simp only
  by_cases hk : 0 ≤ k
  · have hexponent : (k + j).toNat = j + k.toNat := by omega
    rw [if_pos hk, if_pos (by omega)]
    simp only [hexponent, Nat.pow_add, Nat.mul_assoc]
  · rw [if_neg hk]
    by_cases hsum : 0 ≤ k + j
    · have hexponent : j = (k + j).toNat + (-k).toNat := by omega
      rw [if_pos hsum]
      simp only
      rw [Nat.mul_one, Nat.mul_assoc, ← Nat.pow_add, ← hexponent]
    · have hexponent : (-k).toNat = j + (-(k + j)).toNat := by omega
      rw [if_neg hsum]
      simp only [hexponent, Nat.pow_add, Nat.mul_assoc]

theorem Scientific.Same.refl (x : Scientific) : x.Same x := rfl

theorem Scientific.Same.symm {x y : Scientific} (hsame : x.Same y) : y.Same x :=
  Eq.symm hsame

/-- Whether a decimal number lies in an interval does not depend on its spelling. -/
theorem Interval.holds_of_same {i : Interval} {x y : Scientific} (hsame : x.Same y)
    (hholds : i.holds x = true) : i.holds y = true := by
  have hposx := scaleByPower_pos x.digits x.exponent
  have hposy := scaleByPower_pos y.digits y.exponent
  unfold Scientific.Same at hsame
  unfold Interval.holds at hholds ⊢
  generalize scaleByPower x.digits x.exponent = scaled at hsame hholds hposx
  generalize scaleByPower y.digits y.exponent = scaled' at hsame hposy ⊢
  obtain ⟨p, q⟩ := scaled
  obtain ⟨p', q'⟩ := scaled'
  simp only at hsame hposx hposy hholds ⊢
  -- Both comparisons are multiplied by both denominators.
  have hcross : p * quartersPerOne * q' = p' * quartersPerOne * q := by
    rw [Nat.mul_right_comm, hsame, Nat.mul_right_comm]
  have hbelow : ∀ bound, bound * q ≤ p * quartersPerOne ↔ bound * q' ≤ p' * quartersPerOne := by
    intro bound
    rw [← Nat.mul_le_mul_right_iff hposy, hcross, Nat.mul_right_comm bound,
      Nat.mul_le_mul_right_iff hposx]
  have habove : ∀ bound, p * quartersPerOne ≤ bound * q ↔ p' * quartersPerOne ≤ bound * q' := by
    intro bound
    rw [← Nat.mul_le_mul_right_iff hposy, hcross, Nat.mul_right_comm bound,
      Nat.mul_le_mul_right_iff hposx]
  simp only [← Nat.not_le, hbelow, habove] at hholds ⊢
  exact hholds

/-! ## Reading a decimal number in the interval -/

/-- Nothing near a number that is not zero is zero. -/
theorem Near.pos {s e n d : Nat} (hs : s ≠ 0) (hd : 0 < d) (hnear : Near s e n d) : n ≠ 0 := by
  intro hn
  have hplace : 0 < d * 2 ^ e := Nat.mul_pos hd (Nat.pow_pos (by decide))
  have hlow := hnear.1
  have hreach : reach s e * (d * 2 ^ e) ≤ 2 * (d * 2 ^ e) :=
    Nat.mul_le_mul_right _ (reach_le s e)
  have hone : d * 2 ^ e ≤ s * (d * 2 ^ e) := Nat.le_mul_of_pos_left _ (Nat.pos_of_ne_zero hs)
  omega

/-- What is near a number is below every power of two that no number reaches. -/
theorem Near.lt {s e n d : Nat} (hcanonical : Canonical s e) (hnear : Near s e n d) :
    n < 2 ^ 2099 * d ∨ d = 0 := by
  obtain ⟨hbits, hrange, _⟩ := hcanonical
  by_cases hd : d = 0
  · exact Or.inr hd
  left
  have hplace : d * 2 ^ e ≤ d * 2 ^ 2045 :=
    Nat.mul_le_mul_left _ (Nat.pow_le_pow_right (by decide) hrange)
  have hpos : 0 < d * 2 ^ e :=
    Nat.mul_pos (Nat.pos_of_ne_zero hd) (Nat.pow_pos (by decide))
  have hproduct : s * (d * 2 ^ e) + d * 2 ^ e ≤ 2 ^ 53 * (d * 2 ^ e) := by
    rw [← Nat.succ_mul]
    exact Nat.mul_le_mul_right _ hbits
  have hhigh := hnear.2.1
  calc
    n < 2 ^ 53 * (d * 2 ^ e) + 1 := by omega
    _ ≤ 2 ^ 54 * (d * 2 ^ e) := by omega
    _ ≤ 2 ^ 54 * (d * 2 ^ 2045) := Nat.mul_le_mul_left _ hplace
    _ = 2 ^ 2099 * d := by
      rw [Nat.mul_left_comm, ← Nat.pow_add, Nat.mul_comm]

/-- A decimal number near a number has no exponent beyond what is expanded. -/
theorem exponent_le_of_near {s e : Nat} {x : Scientific} (hcanonical : Canonical s e)
    (hdigits : x.digits ≠ 0)
    (hnear : Near s e ((scaleByPower x.digits x.exponent).1 * unitsPerOne)
      (scaleByPower x.digits x.exponent).2) : x.exponent ≤ 400 := by
  by_cases hle : x.exponent ≤ 400
  · exact hle
  have hscaled : scaleByPower x.digits x.exponent = (x.digits * 10 ^ x.exponent.toNat, 1) := by
    unfold scaleByPower
    rw [if_pos (by omega)]
  rw [hscaled] at hnear
  have hlt := (hnear.lt hcanonical).resolve_right Nat.one_ne_zero
  rw [Nat.mul_one] at hlt
  -- From here on the number is larger than every number that is near a finite one.
  have hpow : 2 ^ 1203 ≤ x.digits * 10 ^ x.exponent.toNat := by
    calc
      2 ^ 1203 = 8 ^ 401 := by
        rw [show (8 : Nat) = 2 ^ 3 from rfl, ← Nat.pow_mul]
      _ ≤ 10 ^ 401 := Nat.pow_le_pow_left (by decide) 401
      _ ≤ 10 ^ x.exponent.toNat := Nat.pow_le_pow_right (by decide) (by omega)
      _ ≤ x.digits * 10 ^ x.exponent.toNat :=
        Nat.le_mul_of_pos_left _ (Nat.pos_of_ne_zero hdigits)
  have hge : 2 ^ 2277 ≤ x.digits * 10 ^ x.exponent.toNat * unitsPerOne := by
    rw [show (2277 : Nat) = 1203 + 1074 from rfl, Nat.pow_add]
    exact Nat.mul_le_mul_right _ hpow
  have hpowers : 2 ^ 2099 ≤ 2 ^ 2277 := Nat.pow_le_pow_right (by decide) (by decide)
  exact absurd (Nat.lt_of_lt_of_le hlt (Nat.le_trans hpowers hge)) (Nat.lt_irrefl _)

/-- A decimal number near a number is not taken for zero. -/
theorem exponent_ge_of_near {s e : Nat} {x : Scientific} (hs : s ≠ 0)
    (hnear : Near s e ((scaleByPower x.digits x.exponent).1 * unitsPerOne)
      (scaleByPower x.digits x.exponent).2) :
    ¬ x.exponent + (Nat.log2 x.digits : Int) < -1200 := by
  intro hlt
  have hscaled : scaleByPower x.digits x.exponent = (x.digits, 10 ^ (-x.exponent).toNat) := by
    unfold scaleByPower
    rw [if_neg (by omega)]
  rw [hscaled] at hnear
  have hlow := hnear.1
  simp only at hlow
  generalize hd : 10 ^ (-x.exponent).toNat = d at hlow
  have hplace : d ≤ d * 2 ^ e := Nat.le_mul_of_pos_right _ (Nat.pow_pos (by decide))
  have hreach : reach s e * (d * 2 ^ e) ≤ 2 * (d * 2 ^ e) :=
    Nat.mul_le_mul_right _ (reach_le s e)
  have hone : d * 2 ^ e ≤ s * (d * 2 ^ e) := Nat.le_mul_of_pos_left _ (Nat.pos_of_ne_zero hs)
  -- Near a number that is not zero is at least half a unit.
  have hbound : d ≤ 2 * (x.digits * unitsPerOne) := by omega
  have hdigits' : x.digits < 2 ^ (Nat.log2 x.digits + 1) := Nat.lt_log2_self
  have habove : 2 * (x.digits * unitsPerOne) < 2 ^ (Nat.log2 x.digits + 1076) := by
    rw [show Nat.log2 x.digits + 1076 = Nat.log2 x.digits + 1 + 1074 + 1 by omega,
      Nat.pow_succ, Nat.pow_add _ _ 1074, Nat.mul_comm 2]
    exact Nat.mul_lt_mul_of_pos_right
      (Nat.mul_lt_mul_of_pos_right hdigits' (Nat.pow_pos (by decide))) (by decide)
  -- A small exponent leaves less than that.
  have hbelow : 2 ^ (Nat.log2 x.digits + 1076) ≤ d := by
    calc
      2 ^ (Nat.log2 x.digits + 1076) ≤ 2 ^ (-x.exponent).toNat :=
        Nat.pow_le_pow_right (by decide) (by omega)
      _ ≤ 10 ^ (-x.exponent).toNat := Nat.pow_le_pow_left (by decide) _
      _ = d := hd
  omega

/-- A decimal number in the interval of a number is read as that number. -/
theorem ofScientific_of_holds {s e : Nat} {x : Scientific} (hcanonical : Canonical s e)
    (hs : s ≠ 0) (hholds : (interval s e).holds x = true) (negative : Bool) :
    ofScientific negative x.digits x.exponent = .finite negative s e hcanonical := by
  have hnear := near_of_holds hs hholds
  have hpos := scaleByPower_pos x.digits x.exponent
  have hround := round_of_near hcanonical hpos hnear negative
  have hdigits : x.digits ≠ 0 := by
    intro hzero
    refine hnear.pos hs hpos ?_
    unfold scaleByPower
    rw [hzero]
    split <;> simp
  -- Neither guard against extreme exponents applies.
  have hhigh := exponent_le_of_near hcanonical hdigits hnear
  have hlow := exponent_ge_of_near hs hnear
  unfold ofScientific
  rw [if_neg hdigits, if_neg (by omega), if_neg hlow]
  unfold scaleByPower at hround
  split
  · rename_i hsign
    rw [if_pos hsign] at hround
    exact hround
  · rename_i hsign
    rw [if_neg hsign] at hround
    exact hround

/-! ## The fewest digits -/

theorem holds_of_nearestOnGrid {tie : Tie} {i : Interval} {k : Int} {x : Scientific}
    (hx : nearestOnGrid tie i k = some x) : i.holds x = true := by
  unfold nearestOnGrid at hx
  simp only at hx
  split at hx
  · cases hx
  · rename_i hdown _
    cases hx
    exact hdown
  · rename_i _ hup
    cases hx
    exact hup
  · rename_i hdown hup
    cases hx
    split
    · exact hup
    · exact hdown

theorem holds_of_search {tie : Tie} {i : Interval} {leading : Int} {fuel n : Nat} {x : Scientific}
    (hx : search tie i leading fuel n = some x) : i.holds x = true := by
  induction fuel generalizing n with
  | zero => cases hx
  | succ fuel ih =>
      unfold search at hx
      split at hx
      · rename_i found hfound
        cases hx
        exact holds_of_nearestOnGrid hfound
      · exact ih hx

/-- All digits of a number lie in its interval: they are its middle. -/
theorem holds_exactDigits {s e : Nat} (hs : s ≠ 0) :
    (interval s e).holds (exactDigits (interval s e)) = true := by
  have hscaled : scaleByPower (exactDigits (interval s e)).digits
      (exactDigits (interval s e)).exponent =
        ((interval s e).value * 5 ^ 1076, 10 ^ 1076) := rfl
  -- Digits with all 1076 places after the point write every multiple of a quarter unit exactly.
  have hproduct : (interval s e).value * 5 ^ 1076 * quartersPerOne =
      (interval s e).value * 10 ^ 1076 := by
    have hquarters : quartersPerOne = 2 ^ 1076 := by
      unfold quartersPerOne unitsPerOne
      rw [show (4 : Nat) = 2 ^ 2 from rfl, ← Nat.pow_add]
    rw [hquarters, Nat.mul_assoc, ← Nat.mul_pow]
  have hlower : (interval s e).lower < (interval s e).value := by
    refine Nat.mul_lt_mul_of_pos_right ?_ (Nat.pow_pos (by decide))
    split <;> omega
  have hupper : (interval s e).value < (interval s e).upper :=
    Nat.mul_lt_mul_of_pos_right (by omega) (Nat.pow_pos (by decide))
  have hten : 0 < 10 ^ 1076 := Nat.pow_pos (by decide)
  have hlower' := Nat.mul_lt_mul_of_pos_right hlower hten
  have hupper' := Nat.mul_lt_mul_of_pos_right hupper hten
  unfold Interval.holds
  rw [hscaled]
  simp only [hproduct]
  split
  · rw [Bool.and_eq_true, decide_eq_true_eq, decide_eq_true_eq]
    exact ⟨Nat.le_of_lt hlower', Nat.le_of_lt hupper'⟩
  · rw [Bool.and_eq_true, decide_eq_true_eq, decide_eq_true_eq]
    exact ⟨hlower', hupper'⟩

/-- The fewest digits of a number lie in its interval. -/
theorem holds_shortest (tie : Tie) {s e : Nat} (hs : s ≠ 0) :
    (interval s e).holds (shortest tie s e) = true := by
  unfold shortest
  simp only
  cases hsearch : search tie (interval s e) (leadingExponent (interval s e).value) 17 1 with
  | none => exact holds_exactDigits hs
  | some x => exact holds_of_search hsearch

end Binary64

end DocQuery.Number
