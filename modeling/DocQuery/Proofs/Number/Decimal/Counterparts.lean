import DocQuery.Number.Decimal.Binary64
import DocQuery.Proofs.Number.Binary64.Rounded

/-!
# Decimals as floats

The float of a decimal is rounded at every step, but no step goes far: it is zero only if the
decimal is, and with a fraction it stays well below the largest decimals.

Main names:

* `counts_magnitude` — bounds for the float of a decimal with a fraction;
* `isZero_toBinary64` — the float of a decimal is zero only if the decimal is.
-/

namespace DocQuery.Number.Decimal

open Binary64

/-! ## Steps -/

/-- The powers of ten in double precision, up to the largest scale, lie between the powers of two
around them. -/
theorem powerOfTen_bounds : ∀ scale < maxScale + 1,
    (powerOfTen 5 scale (.ofInt 10) (.ofInt 1)).isFinite = true ∧
      (powerOfTen 5 scale (.ofInt 10) (.ofInt 1)).isNegative = false ∧
      2 ^ Nat.log2 (10 ^ scale) * unitsPerOne ≤
        (powerOfTen 5 scale (.ofInt 10) (.ofInt 1)).units ∧
      (powerOfTen 5 scale (.ofInt 10) (.ofInt 1)).units ≤
        2 ^ (Nat.log2 (10 ^ scale) + 1) * unitsPerOne := by
  decide +kernel

theorem log2_unit_le {scale : Nat} (hscale : scale ≤ 28) : Nat.log2 (10 ^ scale) ≤ 93 := by
  have hpos : 0 < 10 ^ scale := Nat.pow_pos (by decide)
  have hunit : 10 ^ scale < 2 ^ 94 :=
    Nat.lt_of_le_of_lt (Nat.pow_le_pow_right (by decide) hscale) (by decide)
  have hlog := (Nat.log2_lt (Nat.ne_of_gt hpos)).mpr hunit
  omega

/-- Half a unit and more goes up to one. -/
theorem one_le_roundDiv_up {n d : Nat} (hd : 0 < d) (hn : d ≤ 2 * n) : 1 ≤ roundDiv .up n d := by
  by_cases hsmall : n < d
  · have hone : roundDiv .up n d = 0 + 1 := by
      unfold roundDiv
      rw [Nat.div_eq_of_lt hsmall, Nat.mod_eq_of_lt hsmall, if_pos ((goesUp_up_iff 0 n d).mpr hn)]
    exact Nat.le_of_eq hone.symm
  · exact le_roundDiv hd (by omega)

/-- No rounding goes farther than to the next whole number. -/
theorem roundDiv_mul_le (tie : Tie) (n d : Nat) : roundDiv tie n d * d ≤ n + d := by
  have hle : roundDiv tie n d ≤ n / d + 1 := by
    unfold roundDiv
    split <;> omega
  calc
    roundDiv tie n d * d ≤ (n / d + 1) * d := Nat.mul_le_mul_right d hle
    _ = n / d * d + d := Nat.succ_mul _ _
    _ ≤ n + d := Nat.add_le_add_right (Nat.div_mul_le_self n d) d

variable {x y : Binary64} {m k : Nat}

/-- Ones that are divided by less than so many are still positive, with room to spare. -/
theorem units_le_of_ones {n d g : Nat} (hd : 0 < d) (hg : g ≤ 1074) (hn : unitsPerOne ≤ n)
    (hhigh : d ≤ 2 ^ g * unitsPerOne) : unitsPerOne ≤ 2 ^ g * rounded (n * unitsPerOne) d := by
  have hsplit := unitsPerOne_split hg
  have hle : 1 * 2 ^ (1074 - g) ≤ rounded (n * unitsPerOne) d := by
    refine le_rounded hd (by decide) ?_
    calc
      1 * 2 ^ (1074 - g) * d ≤ 2 ^ (1074 - g) * (2 ^ g * unitsPerOne) := by
        rw [Nat.one_mul]
        exact Nat.mul_le_mul_left _ hhigh
      _ = unitsPerOne * unitsPerOne := by
        rw [← Nat.mul_assoc, Nat.mul_comm (2 ^ (1074 - g)), hsplit]
      _ ≤ n * unitsPerOne := Nat.mul_le_mul_right _ hn
  rw [Nat.one_mul] at hle
  calc
    unitsPerOne = 2 ^ g * 2 ^ (1074 - g) := hsplit.symm
    _ ≤ 2 ^ g * rounded (n * unitsPerOne) d := Nat.mul_le_mul_left _ hle

/-- The fraction is at most one, and positive unless nothing remains. -/
theorem counts_fraction {rest unit : Nat} (hrest : rest < unit) (hlog : Nat.log2 unit ≤ 93) :
    ∃ f, Counts ((ofInt rest).div (ofInt unit)) f ∧ f ≤ unitsPerOne ∧
      (rest = 0 → f = 0) ∧ (rest ≠ 0 → unitsPerOne ≤ 2 ^ (Nat.log2 unit + 1) * f) := by
  have hunit : unit ≤ 2 ^ (Nat.log2 unit + 1) := Nat.le_of_lt Nat.lt_log2_self
  have hdivisor := counts_ofInt (by omega) hunit
  have hdividend := counts_ofInt (n := rest) (k := Nat.log2 unit + 1) (by omega) (by omega)
  have hle : rounded (rest * unitsPerOne) 1 ≤ rounded (unit * unitsPerOne) 1 :=
    rounded_mono Nat.one_pos (Nat.mul_le_mul_right _ (Nat.le_of_lt hrest))
  have hhigh : rounded (unit * unitsPerOne) 1 ≤ 2 ^ (Nat.log2 unit + 1) * unitsPerOne := by
    refine rounded_le_ones Nat.one_pos ?_
    rw [Nat.mul_one]
    exact Nat.mul_le_mul_right _ hunit
  have hpos : 0 < rounded (unit * unitsPerOne) 1 :=
    Nat.lt_of_lt_of_le unitsPerOne_pos (one_le_rounded (by omega))
  -- From here on only the bounds of the divisor matter.
  generalize rounded (unit * unitsPerOne) 1 = v at hdivisor hle hhigh hpos
  have hquotient : rounded (rounded (rest * unitsPerOne) 1 * unitsPerOne) v ≤
      2 ^ 0 * unitsPerOne := by
    refine rounded_le_ones hpos ?_
    rw [Nat.pow_zero, Nat.one_mul, Nat.mul_comm]
    exact Nat.mul_le_mul_left _ hle
  refine ⟨_, hdividend.div hdivisor hpos
    (Nat.lt_of_le_of_lt hquotient (ones_lt_ceiling (by decide))), ?_, ?_, ?_⟩
  · rwa [Nat.pow_zero, Nat.one_mul] at hquotient
  · intro hzero
    rw [hzero, Nat.zero_mul, rounded_zero Nat.one_pos, Nat.zero_mul, rounded_zero hpos]
  · intro hsome
    exact units_le_of_ones hpos (by omega) (one_le_rounded hsome) hhigh

/-- The sum of both parts, multiplied by the power of ten: half a unit at least. -/
theorem counts_product {whole fraction power : Binary64} {w f p g : Nat} (hw : Counts whole w)
    (hf : Counts fraction f) (hp : Counts power p) (hg : g ≤ 93) (hwhole : w ≤ 2 ^ 93 * unitsPerOne)
    (hone : f ≤ unitsPerOne) (hsome : unitsPerOne ≤ 2 ^ (g + 1) * f) (hlow : 2 ^ g * unitsPerOne ≤ p)
    (hhigh : p ≤ 2 ^ (g + 1) * unitsPerOne) :
    ∃ t, Counts ((whole.add fraction).mul power) t ∧ t ≤ 2 ^ 94 * p ∧ unitsPerOne ≤ 2 * t := by
  have hsum : rounded (w + f) 1 ≤ 2 ^ 94 * unitsPerOne := rounded_le_ones Nat.one_pos (by omega)
  have hadd := hw.add hf (Nat.lt_of_le_of_lt hsum (ones_lt_ceiling (by decide)))
  have hfsum : f ≤ rounded (w + f) 1 := hf.le_rounded Nat.one_pos (by omega)
  generalize rounded (w + f) 1 = t at hsum hadd hfsum
  have hproduct : rounded (t * p) unitsPerOne ≤ 2 ^ 94 * p := by
    refine hp.rounded_le unitsPerOne_pos ?_
    rw [Nat.mul_right_comm]
    exact Nat.mul_le_mul_right _ hsum
  have hrange : 2 ^ 94 * p < ceiling := by
    refine Nat.lt_of_le_of_lt ?_ (ones_lt_ceiling (k := 94 + (g + 1)) (by omega))
    rw [Nat.pow_add, Nat.mul_assoc]
    exact Nat.mul_le_mul_left _ hhigh
  refine ⟨_, hadd.mul hp (Nat.lt_of_le_of_lt hproduct hrange), hproduct, ?_⟩
  -- The fraction is worth at least half the last place of the power.
  have hsplit := unitsPerOne_split (g := g + 1) (by omega)
  generalize 1074 - (g + 1) = j at hsplit
  have hplace : 2 ^ j ≤ f := by
    rw [← hsplit] at hsome
    exact Nat.le_of_mul_le_mul_left hsome (Nat.pow_pos (by decide))
  have hhalf : 1 * 2 ^ (j + g) ≤ rounded (t * p) unitsPerOne := by
    refine le_rounded unitsPerOne_pos (by decide) ?_
    calc
      1 * 2 ^ (j + g) * unitsPerOne = 2 ^ j * (2 ^ g * unitsPerOne) := by
        rw [Nat.one_mul, Nat.pow_add, Nat.mul_assoc]
      _ ≤ t * p := Nat.mul_le_mul (Nat.le_trans hplace hfsum) hlow
  have hdouble : 2 * (1 * 2 ^ (j + g)) = unitsPerOne := by
    rw [← hsplit, Nat.one_mul, Nat.pow_add, Nat.pow_succ, Nat.mul_comm (2 ^ j), ← Nat.mul_assoc,
      Nat.mul_comm 2]
  omega

/-- The nearest whole number is at least one if the number is at least one half. -/
theorem counts_roundToWhole {t p k : Nat} (hx : Counts x t) (hy : Counts y p) (hk : k < 900)
    (ht : t ≤ 2 ^ 94 * p) (hhalf : unitsPerOne ≤ 2 * t) (hlow : unitsPerOne ≤ p)
    (hhigh : p ≤ 2 ^ k * unitsPerOne) :
    ∃ z, Counts (roundToWhole x) z ∧ unitsPerOne ≤ z ∧ z ≤ 2 ^ 95 * p := by
  have hone : 1 ≤ roundDiv .up t unitsPerOne := one_le_roundDiv_up unitsPerOne_pos hhalf
  have hround := roundDiv_mul_le .up t unitsPerOne
  unfold roundToWhole
  rw [hx.units]
  generalize roundDiv .up t unitsPerOne = n at hone hround ⊢
  have hn : n * unitsPerOne ≤ 2 ^ 95 * p := by omega
  have hrange : n ≤ 2 ^ (95 + k) := by
    refine Nat.le_of_mul_le_mul_right (Nat.le_trans hn ?_) unitsPerOne_pos
    rw [Nat.pow_add, Nat.mul_assoc]
    exact Nat.mul_le_mul_left _ hhigh
  refine ⟨_, counts_ofInt (by omega) hrange, ?_, ?_⟩
  · exact one_le_rounded (Nat.one_le_iff_ne_zero.mp hone)
  · refine hy.rounded_le Nat.one_pos ?_
    rw [Nat.mul_one]
    exact hn

/-- Divided by the power again, the number is positive and below twice what it was. -/
theorem counts_scaledBack {z p g : Nat} (hx : Counts x z) (hy : Counts y p) (hg : g ≤ 93)
    (hone : unitsPerOne ≤ z) (hz : z ≤ 2 ^ 95 * p) (hlow : unitsPerOne ≤ p)
    (hhigh : p ≤ 2 ^ (g + 1) * unitsPerOne) :
    ∃ q, Counts (x.div y) q ∧ 0 < q ∧ q ≤ 2 ^ 95 * unitsPerOne := by
  have hpos : 0 < p := Nat.lt_of_lt_of_le unitsPerOne_pos hlow
  have hle : rounded (z * unitsPerOne) p ≤ 2 ^ 95 * unitsPerOne := by
    refine rounded_le_ones hpos ?_
    rw [Nat.mul_right_comm]
    exact Nat.mul_le_mul_right _ hz
  have hlarge := units_le_of_ones hpos (by omega) hone hhigh
  refine ⟨_, hx.div hy hpos (Nat.lt_of_le_of_lt hle (ones_lt_ceiling (by decide))), ?_, hle⟩
  refine Nat.pos_of_ne_zero fun hzero => ?_
  rw [hzero, Nat.mul_zero] at hlarge
  exact absurd unitsPerOne_pos (Nat.not_lt.mpr hlarge)

/-! ## The float of a decimal -/

/-- The fraction of a decimal as a float is zero only if no digits are after the point. -/
theorem isZero_fraction (d : Decimal) :
    ((ofInt (d.coefficient % 10 ^ d.scale : Nat)).div (ofInt (10 ^ d.scale : Nat))).isZero = true ↔
      d.coefficient % 10 ^ d.scale = 0 := by
  have hrest := Nat.mod_lt d.coefficient (Nat.pow_pos (by decide : 0 < 10) (n := d.scale))
  obtain ⟨f, hf, _, hnone, hsome⟩ := counts_fraction hrest (log2_unit_le d.scale_le)
  have hpos := unitsPerOne_pos
  refine hf.isZero_iff.trans ⟨fun hzero => Decidable.byContradiction fun hne => ?_, hnone⟩
  have hle := hsome hne
  rw [hzero, Nat.mul_zero] at hle
  omega

/-- Digits before the point only. -/
theorem magnitude_of_whole {d : Decimal} (hrest : d.coefficient % 10 ^ d.scale = 0) :
    d.magnitude64 = ofInt (d.coefficient / 10 ^ d.scale : Nat) := by
  have hzero := d.isZero_fraction.mpr hrest
  unfold magnitude64
  dsimp only
  rw [if_pos (by rw [hzero, Bool.or_true])]

/-- Digits after the point, which are rounded once more with the others. -/
theorem magnitude_of_rest {d : Decimal} (hrest : d.coefficient % 10 ^ d.scale ≠ 0) :
    d.magnitude64 =
      (roundToWhole (((ofInt (d.coefficient / 10 ^ d.scale : Nat)).add
        ((ofInt (d.coefficient % 10 ^ d.scale : Nat)).div (ofInt (10 ^ d.scale : Nat)))).mul
          (powerOfTen 5 d.scale (.ofInt 10) (.ofInt 1)))).div
        (powerOfTen 5 d.scale (.ofInt 10) (.ofInt 1)) := by
  have hscale : d.scale ≠ 0 := by
    intro hscale
    rw [hscale, Nat.pow_zero, Nat.mod_one] at hrest
    exact hrest rfl
  have hsome := (not_congr d.isZero_fraction).mpr hrest
  unfold magnitude64
  dsimp only
  rw [if_neg]
  rw [Bool.or_eq_true, decide_eq_true_eq]
  exact fun hexact => hexact.elim hscale hsome

/-- The whole part of a decimal with a fraction. -/
theorem whole_le {d : Decimal} (hscale : d.scale ≠ 0) : d.coefficient / 10 ^ d.scale ≤ 2 ^ 93 := by
  have hten : 10 ≤ 10 ^ d.scale := Nat.le_self_pow hscale 10
  have hle : d.coefficient / 10 ^ d.scale ≤ d.coefficient / 10 :=
    Nat.div_le_div_left hten (by decide)
  have hlt := d.coefficient_lt
  omega

theorem counts_whole {d : Decimal} (hscale : d.scale ≠ 0) :
    ∃ w, Counts (ofInt (d.coefficient / 10 ^ d.scale : Nat)) w ∧ w ≤ 2 ^ 93 * unitsPerOne := by
  refine ⟨_, counts_ofInt (k := 93) (by decide) (whole_le hscale), ?_⟩
  refine rounded_le_ones Nat.one_pos ?_
  rw [Nat.mul_one]
  exact Nat.mul_le_mul_right _ (whole_le hscale)

theorem counts_magnitude_of_rest {d : Decimal} (hscale : d.scale ≠ 0)
    (hrest : d.coefficient % 10 ^ d.scale ≠ 0) :
    ∃ q, Counts d.magnitude64 q ∧ 0 < q ∧ q ≤ 2 ^ 95 * unitsPerOne := by
  have hlog := log2_unit_le d.scale_le
  obtain ⟨hfinite, hpositive, hlow, hhigh⟩ := powerOfTen_bounds d.scale (Nat.lt_succ_of_le d.scale_le)
  have hpower : Counts (powerOfTen 5 d.scale (.ofInt 10) (.ofInt 1)) _ := ⟨hfinite, hpositive, rfl⟩
  have hlow' := Nat.le_trans (Nat.le_mul_of_pos_left _ (Nat.pow_pos (by decide))) hlow
  have hlt := Nat.mod_lt d.coefficient (Nat.pow_pos (by decide : 0 < 10) (n := d.scale))
  obtain ⟨w, hw, hwhole⟩ := counts_whole hscale
  obtain ⟨f, hf, hone, _, hsome⟩ := counts_fraction hlt hlog
  obtain ⟨t, ht, hthigh, hthalf⟩ :=
    counts_product hw hf hpower hlog hwhole hone (hsome hrest) hlow hhigh
  obtain ⟨z, hz, hzlow, hzhigh⟩ :=
    counts_roundToWhole ht hpower (by omega) hthigh hthalf hlow' hhigh
  rw [magnitude_of_rest hrest]
  exact counts_scaledBack hz hpower hlog hzlow hzhigh hlow' hhigh

/-- The float of a decimal with a fraction is zero only if the decimal is, and stays below half of
the largest decimals. -/
theorem counts_magnitude (d : Decimal) (hscale : d.scale ≠ 0) :
    ∃ q, Counts d.magnitude64 q ∧ q ≤ 2 ^ 95 * unitsPerOne ∧ (q = 0 ↔ d.coefficient = 0) := by
  by_cases hrest : d.coefficient % 10 ^ d.scale = 0
  · obtain ⟨w, hw, hwhole⟩ := counts_whole hscale
    have hpos : 0 < 10 ^ d.scale := Nat.pow_pos (by decide)
    have hsplit := Nat.div_mul_cancel (Nat.dvd_of_mod_eq_zero hrest)
    rw [magnitude_of_whole hrest]
    refine ⟨w, hw, Nat.le_trans hwhole (Nat.mul_le_mul_right _ (by decide)), ?_⟩
    rw [← hw.isZero_iff, isZero_ofInt, Int.natCast_eq_zero]
    refine ⟨fun hzero => ?_, fun hzero => by rw [hzero, Nat.zero_div]⟩
    rw [← hsplit, hzero, Nat.zero_mul]
  · obtain ⟨q, hq, hpos, hle⟩ := counts_magnitude_of_rest hscale hrest
    refine ⟨q, hq, hle, iff_of_false (Nat.ne_of_gt hpos) fun hzero => hrest ?_⟩
    rw [hzero, Nat.zero_mod]

theorem magnitude_of_scale_zero {d : Decimal} (hscale : d.scale = 0) :
    d.magnitude64 = ofInt d.coefficient := by
  unfold magnitude64
  simp only [hscale, Nat.pow_zero, Nat.div_one, decide_true, Bool.true_or, if_true]

/-- The magnitude of a decimal as a float: none is beyond the largest decimals. -/
theorem exists_magnitude (d : Decimal) :
    ∃ q, Counts d.magnitude64 q ∧ (q = 0 ↔ d.coefficient = 0) ∧
      (d.scale = 0 → q = rounded (d.coefficient * unitsPerOne) 1) ∧
      (d.scale ≠ 0 → q ≤ 2 ^ 95 * unitsPerOne) := by
  by_cases hscale : d.scale = 0
  · have hcounts := counts_ofInt (k := 96) (by decide) (Nat.le_of_lt d.coefficient_lt)
    rw [← magnitude_of_scale_zero hscale] at hcounts
    refine ⟨_, hcounts, ?_, fun _ => rfl, fun hne => absurd hscale hne⟩
    rw [← hcounts.isZero_iff, magnitude_of_scale_zero hscale, isZero_ofInt, Int.natCast_eq_zero]
  · obtain ⟨q, hq, hle, hzero⟩ := counts_magnitude d hscale
    exact ⟨q, hq, hzero, fun heq => absurd heq hscale, fun _ => hle⟩

/-- The float of a decimal has its sign. -/
theorem signedUnits_toBinary64 {d : Decimal} {q : Nat} (hq : Counts d.magnitude64 q)
    (hzero : q = 0 ↔ d.coefficient = 0) :
    d.toBinary64.isFinite = true ∧
      d.toBinary64.signedUnits = if d.negative then -(q : Int) else q := by
  obtain ⟨s, e, hcanonical, hx, rfl⟩ := hq.exists_finite
  unfold toBinary64
  rw [hx]
  cases hsign : d.negative with
  | false => exact ⟨rfl, rfl⟩
  | true =>
      cases hplain : d.isZero && d.scale == 0 with
      | false => exact ⟨rfl, rfl⟩
      | true =>
          rw [Bool.and_eq_true, isZero, beq_iff_eq] at hplain
          have hnone : s * 2 ^ e = 0 := hzero.mpr hplain.1
          refine ⟨rfl, ?_⟩
          show ((s * 2 ^ e : Nat) : Int) = -((s * 2 ^ e : Nat) : Int)
          rw [hnone]
          rfl

/-- The float of a decimal is zero only if the decimal is. -/
theorem isZero_toBinary64 (d : Decimal) : d.toBinary64.isZero = d.isZero := by
  obtain ⟨q, hq, hzero, _⟩ := exists_magnitude d
  have hmagnitude : d.magnitude64.isZero = true ↔ d.coefficient = 0 := by
    rw [hq.isZero_iff, hzero]
  have hneg : d.magnitude64.neg.isZero = d.magnitude64.isZero := by
    cases d.magnitude64 <;> rfl
  rw [Bool.eq_iff_iff, isZero, beq_iff_eq, ← hmagnitude]
  unfold toBinary64
  split
  · rw [hneg]
  · exact Iff.rfl

end DocQuery.Number.Decimal
