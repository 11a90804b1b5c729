import DocQuery.Proofs.Number.Decimal.Counterparts
import DocQuery.Proofs.Value.Order
import Mathlib.Data.Rat.Floor
import Mathlib.Order.Compare

/-!
# Ints and decimals in exact order

Ints and decimals have exact values, and two of them are ordered as these are.  An int beyond the
decimals is compared with a decimal as a float, and the order is still that of the values: no decimal
comes near such an int, except that the largest decimals and the least such ints are rounded to the
same float.

Main names:

* `Value.toRat?` — the rational number of an int or a decimal;
* `Decimal.compareTo_eq_compare` — the order of decimals;
* `compare?_toBinary64` — the order of an int beyond the decimals and a decimal, as floats;
* `Value.Blurred` — the pairs that are taken as equal although they are not;
* `Value.compareTo_exact` — the order of all the others.
-/

namespace DocQuery

open Number

/-! ## Decimals as rational numbers -/

namespace Number.Decimal

/-- The number that a decimal stands for. -/
def toRat (d : Decimal) : ℚ :=
  d.signed / 10 ^ d.scale

theorem atScale_eq (d : Decimal) {scale : ℕ} (hscale : d.scale ≤ scale) :
    (d.atScale scale : ℚ) = d.toRat * 10 ^ scale := by
  obtain ⟨k, rfl⟩ := Nat.exists_eq_add_of_le hscale
  have hunit : (10 : ℚ) ^ d.scale ≠ 0 := by positivity
  rw [atScale, toRat, Nat.add_sub_cancel_left, pow_add]
  push_cast
  field_simp

theorem compareTo_eq_compare (a b : Decimal) : a.compareTo b = compare a.toRat b.toRat := by
  have hunit : (0 : ℚ) < 10 ^ max a.scale b.scale := by positivity
  have hcast := (Int.cast_strictMono (R := ℚ)).cmp_map_eq
    (a.atScale (max a.scale b.scale)) (b.atScale (max a.scale b.scale))
  rw [atScale_eq a (le_max_left _ _), atScale_eq b (le_max_right _ _),
    (strictMono_mul_right_of_pos hunit).cmp_map_eq, cmp_eq_compare, cmp_eq_compare] at hcast
  exact hcast.symm

/-- An int within the range of decimals is its decimal. -/
theorem ofInt_cases (n : ℤ) :
    (∃ d, ofInt? n = some d ∧ d.toRat = n ∧ n.natAbs < 2 ^ 96) ∨
      (ofInt? n = none ∧ 2 ^ 96 ≤ n.natAbs) := by
  unfold ofInt? make?
  split
  · rename_i hrange
    refine Or.inl ⟨_, rfl, ?_, hrange.1⟩
    have hsigned : (if decide (n < 0) = true then -(n.natAbs : ℤ) else n.natAbs) = n := by
      simp only [decide_eq_true_eq]
      split <;> omega
    rw [toRat, signed, hsigned, pow_zero, div_one]
  · rename_i hrange
    exact Or.inr ⟨rfl, by omega⟩

theorem abs_toRat (d : Decimal) : |d.toRat| = d.coefficient / 10 ^ d.scale := by
  have hsigned : |(d.signed : ℚ)| = d.coefficient := by
    unfold signed
    split <;> simp
  rw [toRat, abs_div, hsigned, abs_of_pos (by positivity)]

theorem toRat_neg_iff {d : Decimal} (hd : d.coefficient ≠ 0) :
    d.toRat < 0 ↔ d.negative = true := by
  have hunit : (0 : ℚ) < 10 ^ d.scale := by positivity
  have hcoefficient : 0 < d.coefficient := Nat.pos_of_ne_zero hd
  rw [toRat, div_lt_iff₀ hunit, zero_mul, Int.cast_lt_zero, signed]
  cases d.negative with
  | true => simp [hcoefficient]
  | false => simp

/-- With digits after the point a decimal has a tenth of the range. -/
theorem abs_toRat_le_of_scale {d : Decimal} (hscale : d.scale ≠ 0) : |d.toRat| ≤ 2 ^ 96 / 10 := by
  have hten : (10 : ℚ) ≤ 10 ^ d.scale := by
    exact_mod_cast Nat.le_self_pow hscale 10
  have hcoefficient : (d.coefficient : ℚ) ≤ 2 ^ 96 := by
    exact_mod_cast Nat.le_of_lt d.coefficient_lt
  rw [abs_toRat]
  exact div_le_div₀ (by positivity) hcoefficient (by norm_num) hten

theorem abs_toRat_of_scale_zero {d : Decimal} (hscale : d.scale = 0) :
    |d.toRat| = d.coefficient := by
  rw [abs_toRat, hscale, pow_zero, div_one]

theorem abs_toRat_lt (d : Decimal) : |d.toRat| < 2 ^ 96 := by
  by_cases hscale : d.scale = 0
  · rw [abs_toRat_of_scale_zero hscale]
    exact_mod_cast d.coefficient_lt
  · exact lt_of_le_of_lt (abs_toRat_le_of_scale hscale) (by norm_num)

/-- The largest decimals are whole numbers. -/
theorem le_abs_toRat_iff (d : Decimal) :
    2 ^ 96 - 2 ^ 42 ≤ |d.toRat| ↔ d.scale = 0 ∧ 2 ^ 96 - 2 ^ 42 ≤ d.coefficient := by
  by_cases hscale : d.scale = 0
  · rw [and_iff_right hscale, abs_toRat_of_scale_zero hscale, sub_le_iff_le_add,
      Nat.sub_le_iff_le_add]
    norm_cast
  -- A tenth of the range is far from its end.
  · refine iff_of_false (fun hlarge => ?_) fun hlarge => hscale hlarge.1
    have hle := le_trans hlarge (abs_toRat_le_of_scale hscale)
    norm_num at hle

end Number.Decimal

/-! ## Ints beyond the decimals, as floats -/

namespace Number.Binary64

/-- The least and the largest int that go to the end of the range, and the ones beside them. -/
theorem rounded_around_ones :
    rounded ((2 ^ 96 - 2 ^ 42 - 1) * unitsPerOne) 1 < 2 ^ 96 * unitsPerOne ∧
      rounded ((2 ^ 96 - 2 ^ 42) * unitsPerOne) 1 = 2 ^ 96 * unitsPerOne ∧
      rounded ((2 ^ 96 + 2 ^ 43) * unitsPerOne) 1 = 2 ^ 96 * unitsPerOne ∧
      2 ^ 96 * unitsPerOne < rounded ((2 ^ 96 + 2 ^ 43 + 1) * unitsPerOne) 1 := by
  decide +kernel

theorem rounded_ones_of_le {n : ℕ} (hlow : 2 ^ 96 - 2 ^ 42 ≤ n) (hhigh : n ≤ 2 ^ 96 + 2 ^ 43) :
    rounded (n * unitsPerOne) 1 = 2 ^ 96 * unitsPerOne := by
  obtain ⟨_, hleast, hlargest, _⟩ := rounded_around_ones
  refine Nat.le_antisymm ?_ ?_
  · rw [← hlargest]
    exact rounded_mono Nat.one_pos (Nat.mul_le_mul_right _ hhigh)
  · rw [← hleast]
    exact rounded_mono Nat.one_pos (Nat.mul_le_mul_right _ hlow)

theorem ones_lt_rounded {n : ℕ} (hn : 2 ^ 96 + 2 ^ 43 < n) :
    2 ^ 96 * unitsPerOne < rounded (n * unitsPerOne) 1 := by
  obtain ⟨_, _, _, hnext⟩ := rounded_around_ones
  exact Nat.lt_of_lt_of_le hnext (rounded_mono Nat.one_pos (Nat.mul_le_mul_right _ hn))

theorem rounded_lt_ones {n : ℕ} (hn : n < 2 ^ 96 - 2 ^ 42) :
    rounded (n * unitsPerOne) 1 < 2 ^ 96 * unitsPerOne := by
  obtain ⟨hlast, _⟩ := rounded_around_ones
  exact Nat.lt_of_le_of_lt (rounded_mono Nat.one_pos (Nat.mul_le_mul_right _ (by omega))) hlast

/-- The least ints beyond the decimals go down to the end of the range. -/
theorem rounded_eq_ones_iff {m : ℕ} (hm : 2 ^ 96 ≤ m) :
    rounded (m * unitsPerOne) 1 = 2 ^ 96 * unitsPerOne ↔ m ≤ 2 ^ 96 + 2 ^ 43 := by
  refine ⟨fun heq => Nat.le_of_not_lt fun hlarge => ?_, rounded_ones_of_le (by omega)⟩
  exact absurd heq (Nat.ne_of_gt (ones_lt_rounded hlarge))

/-- No decimal is beyond the end of the range as a float, and only the largest ones go up to it. -/
theorem exists_magnitude_le_ones (d : Decimal) :
    ∃ q, Counts d.magnitude64 q ∧ (q = 0 ↔ d.coefficient = 0) ∧ q ≤ 2 ^ 96 * unitsPerOne ∧
      (q = 2 ^ 96 * unitsPerOne ↔ 2 ^ 96 - 2 ^ 42 ≤ |d.toRat|) := by
  obtain ⟨q, hq, hzero, hwhole, hfraction⟩ := d.exists_magnitude
  refine ⟨q, hq, hzero, ?_⟩
  rw [d.le_abs_toRat_iff]
  by_cases hscale : d.scale = 0
  · rw [and_iff_right hscale, hwhole hscale]
    have hlt := d.coefficient_lt
    refine ⟨rounded_le_ones Nat.one_pos ?_, fun heq => Nat.le_of_not_lt fun hsmall => ?_,
      fun hlarge => rounded_ones_of_le hlarge (by omega)⟩
    · rw [Nat.mul_one]
      exact Nat.mul_le_mul_right _ (Nat.le_of_lt hlt)
    · exact absurd heq (Nat.ne_of_lt (rounded_lt_ones hsmall))
  · have hle := hfraction hscale
    have hpos := unitsPerOne_pos
    exact ⟨by omega, iff_of_false (by omega) fun hlarge => hscale hlarge.1⟩

/-- An int as a float is compared as if there were no largest float. -/
theorem compare?_ofInt {n : ℤ} (hn : n ≠ 0) {y : Binary64} (hy : y.isFinite = true)
    (hrange : y.signedUnits.natAbs < ceiling) :
    (ofInt n).compare? y =
      some (compare (if n < 0 then -(rounded (n.natAbs * unitsPerOne) 1 : ℤ)
        else rounded (n.natAbs * unitsPerOne) 1) y.signedUnits) := by
  cases y with
  | nan => cases hy
  | infinity => cases hy
  | finite =>
      rcases ofInt_cases hn with ⟨s, e, hcanonical, hx, hs⟩ | ⟨hx, hlarge⟩
      · have hsigned : (ofInt n).signedUnits = if n < 0 then
            -(rounded (n.natAbs * unitsPerOne) 1 : ℤ) else rounded (n.natAbs * unitsPerOne) 1 := by
          rw [hx, ← hs]
          simp only [signedUnits, isNegative, units, decide_eq_true_eq]
        rw [← hsigned, hx]
        rfl
      -- The rounded int is an infinity, beyond every finite number.
      · rw [hx]
        generalize rounded (n.natAbs * unitsPerOne) 1 = v at hlarge ⊢
        generalize signedUnits _ = z at hrange ⊢
        by_cases hneg : n < 0
        · have hlt : compare (-(v : ℤ)) z = .lt := compare_lt_iff_lt.mpr (by omega)
          rw [if_pos hneg, hlt, compare?, if_pos (decide_eq_true hneg)]
        · have hgt : compare (v : ℤ) z = .gt := compare_gt_iff_gt.mpr (by omega)
          rw [if_neg hneg, hgt, compare?, if_neg (by simpa using hneg)]

end Number.Binary64

/-! ## Ints beside decimals -/

/-- An int beyond the decimals and a decimal that are rounded to the same float. -/
def Number.Decimal.Touches (d : Decimal) (n : ℤ) : Prop :=
  2 ^ 96 ≤ n.natAbs ∧ n.natAbs ≤ 2 ^ 96 + 2 ^ 43 ∧ 2 ^ 96 - 2 ^ 42 ≤ |d.toRat| ∧
    (n < 0 ↔ d.toRat < 0)

variable {n : ℤ} {d : Decimal}

/-- An int beyond the decimals lies outside all of them. -/
theorem compare_toRat_of_beyond (hn : 2 ^ 96 ≤ n.natAbs) (d : Decimal) :
    compare (n : ℚ) d.toRat = if n < 0 then .lt else .gt := by
  obtain ⟨hlow, hhigh⟩ := abs_lt.mp d.abs_toRat_lt
  by_cases hneg : n < 0
  · have hle : (n : ℚ) ≤ -2 ^ 96 := by
      have hle : n ≤ -2 ^ 96 := by omega
      exact_mod_cast hle
    rw [if_pos hneg]
    exact compare_lt_iff_lt.mpr (lt_of_le_of_lt hle hlow)
  · have hle : (2 ^ 96 : ℚ) ≤ n := by
      have hle : 2 ^ 96 ≤ n := by omega
      exact_mod_cast hle
    rw [if_neg hneg]
    exact compare_gt_iff_gt.mpr (lt_of_lt_of_le hhigh hle)

/-- The order of an int beyond the decimals and a decimal as floats: that of their values, unless
they touch. -/
theorem compare?_toBinary64 (hn : 2 ^ 96 ≤ n.natAbs) (d : Decimal) :
    (d.Touches n → (Binary64.ofInt n).compare? d.toBinary64 = some .eq) ∧
      (¬ d.Touches n → (Binary64.ofInt n).compare? d.toBinary64 = some (compare (n : ℚ) d.toRat)) := by
  obtain ⟨q, hq, hzero, hend, hlargest⟩ := Binary64.exists_magnitude_le_ones d
  obtain ⟨hfinite, hunits⟩ := d.signedUnits_toBinary64 hq hzero
  have hnonzero : n ≠ 0 := by
    rintro rfl
    exact absurd hn (by decide)
  have hbeyond : 2 ^ 96 * Binary64.unitsPerOne ≤
      Binary64.rounded (n.natAbs * Binary64.unitsPerOne) 1 := by
    refine Binary64.ones_le_rounded Nat.one_pos ?_
    rw [Nat.mul_one]
    exact Nat.mul_le_mul_right _ hn
  have hnatAbs : d.toBinary64.signedUnits.natAbs < Binary64.ceiling := by
    have hceiling := Binary64.ones_lt_ceiling (k := 96) (by decide)
    rw [hunits]
    split <;> omega
  have hleast := Binary64.rounded_eq_ones_iff hn
  have hone := Binary64.unitsPerOne_pos
  rw [Binary64.compare?_ofInt hnonzero hfinite hnatAbs, hunits, compare_toRat_of_beyond hn d]
  generalize Binary64.rounded (n.natAbs * Binary64.unitsPerOne) 1 = v at hbeyond hleast ⊢
  -- Both floats are equal only at the end of the range, between them.
  have hiff : q = v ↔ n.natAbs ≤ 2 ^ 96 + 2 ^ 43 ∧ 2 ^ 96 - 2 ^ 42 ≤ |d.toRat| := by
    rw [← hleast, ← hlargest]
    omega
  have hreach (heq : q = v) : d.Touches n ↔ (n < 0 ↔ d.negative = true) := by
    obtain ⟨hint, hdecimal⟩ := hiff.mp heq
    have hcoefficient : d.coefficient ≠ 0 := by
      obtain ⟨_, hlarge⟩ := d.le_abs_toRat_iff.mp hdecimal
      omega
    rw [Decimal.Touches, and_iff_right hn, and_iff_right hint, and_iff_right hdecimal,
      Decimal.toRat_neg_iff hcoefficient]
  refine ⟨fun htouch => ?_, fun htouch => ?_⟩
  · have heq := hiff.mpr ⟨htouch.2.1, htouch.2.2.1⟩
    have hsign := (hreach heq).mp htouch
    rw [heq, if_congr hsign rfl rfl]
    exact congrArg some (compare_eq_iff_eq.mpr rfl)
  -- Elsewhere the int is farther from zero than the decimal, or on the other side.
  · have hapart (heq : q = v) : ¬ (n < 0 ↔ d.negative = true) :=
      fun hsign => htouch ((hreach heq).mpr hsign)
    by_cases hneg : n < 0
    · have hlt : -(v : ℤ) < if d.negative = true then -(q : ℤ) else q := by
        split
        · rename_i hnegative
          have hne : q ≠ v := fun heq => hapart heq (iff_of_true hneg hnegative)
          omega
        · omega
      rw [if_pos hneg, if_pos hneg, compare_lt_iff_lt.mpr hlt]
    · have hgt : (if d.negative = true then -(q : ℤ) else q) < v := by
        split
        · omega
        · rename_i hnegative
          have hne : q ≠ v := fun heq => hapart heq (iff_of_false hneg hnegative)
          omega
      rw [if_neg hneg, if_neg hneg, compare_gt_iff_gt.mpr hgt]

/-! ## Numbers with exact values -/

/-- The rational number of an int or a decimal. -/
def Numeric.toRat? : Numeric → Option ℚ
  | int n => some n
  | decimal d => some d.toRat
  | float _ => none

/-- An int and a decimal, in either order, that touch. -/
def Numeric.Blurred : Numeric → Numeric → Prop
  | int n, decimal d => d.Touches n
  | decimal d, int n => d.Touches n
  | _, _ => False

theorem Numeric.Blurred.symm {x y : Numeric} (hblurred : x.Blurred y) : y.Blurred x := by
  cases x <;> cases y <;> exact hblurred

namespace Value

theorem compareNumbers_int_decimal (n : ℤ) (d : Decimal) :
    (d.Touches n → compareNumbers (.int n) (.decimal d) = .ok .eq ∧ (n : ℚ) ≠ d.toRat) ∧
      (¬ d.Touches n → compareNumbers (.int n) (.decimal d) = .ok (compare (n : ℚ) d.toRat)) := by
  rcases Decimal.ofInt_cases n with ⟨d', hd', hvalue, hrange⟩ | ⟨hnone, hrange⟩
  · have hform : (Numeric.int n).coerce (.decimal d) = .decimal d' d := by
      simp only [Numeric.coerce, Numeric.kind, Numeric.commonKind, Numeric.toDecimal?, hd']
    refine ⟨fun htouch => absurd htouch.1 (Nat.not_le_of_lt hrange), fun _ => ?_⟩
    rw [compareNumbers, hform, ← hvalue, ← Decimal.compareTo_eq_compare]
  · have hform : (Numeric.int n).coerce (.decimal d) = .float (.ofInt n) d.toBinary64 := by
      simp only [Numeric.coerce, Numeric.kind, Numeric.commonKind, Numeric.toDecimal?, hnone,
        Numeric.toFloat]
    obtain ⟨hequal, hexact⟩ := compare?_toBinary64 hrange d
    rw [compareNumbers, hform]
    dsimp only
    refine ⟨fun htouch => ⟨?_, fun heq => ?_⟩, fun htouch => ?_⟩
    · rw [hequal htouch]
    · have horder := compare_toRat_of_beyond hrange d
      rw [compare_eq_iff_eq.mpr heq] at horder
      split at horder <;> cases horder
    · rw [hexact htouch]

theorem compareNumbers_exact {x y : Numeric} {p q : ℚ} (hx : x.toRat? = some p)
    (hy : y.toRat? = some q) :
    (x.Blurred y → compareNumbers x y = .ok .eq ∧ p ≠ q) ∧
      (¬ x.Blurred y → compareNumbers x y = .ok (compare p q)) := by
  cases x with
  | float => cases hx
  | int m =>
      cases hx
      cases y with
      | float => cases hy
      | int n =>
          cases hy
          refine ⟨False.elim, fun _ => congrArg Except.ok ?_⟩
          have hcast := (Int.cast_strictMono (R := ℚ)).cmp_map_eq m n
          rw [cmp_eq_compare, cmp_eq_compare] at hcast
          exact hcast.symm
      | decimal d =>
          cases hy
          exact compareNumbers_int_decimal m d
  | decimal d =>
      cases hx
      cases y with
      | float => cases hy
      | int n =>
          cases hy
          -- The same pair in the other order.
          obtain ⟨hequal, hexact⟩ := compareNumbers_int_decimal n d
          rw [compareNumbers_swap (.int n) (.decimal d)]
          refine ⟨fun htouch => ?_, fun htouch => ?_⟩
          · obtain ⟨horder, hne⟩ := hequal htouch
            rw [horder]
            exact ⟨rfl, hne.symm⟩
          · rw [hexact htouch]
            exact congrArg Except.ok Std.OrientedOrd.eq_swap.symm
      | decimal e =>
          cases hy
          exact ⟨False.elim, fun _ => congrArg Except.ok (Decimal.compareTo_eq_compare d e)⟩

/-! ## Values with exact values -/

/-- The rational number that a value holds, if it is an int or a decimal. -/
def toRat? (v : Value) : Option ℚ :=
  v.numeric?.bind Numeric.toRat?

/-- An int beyond the decimals and a decimal that are rounded to the same float. -/
def Blurred (a b : Value) : Prop :=
  ∃ x y, a.numeric? = some x ∧ b.numeric? = some y ∧ x.Blurred y

/-- The first value is ordered before the second one, or as equal to it. -/
def AtMost (a b : Value) : Prop :=
  ∃ order, a.compareTo b = .ok order ∧ order ≠ .gt

variable {a b c : Value} {p q r : ℚ}

/-- The order of ints and decimals. -/
theorem compareTo_of_exact (ha : a.toRat? = some p) (hb : b.toRat? = some q) :
    (a.Blurred b → a.compareTo b = .ok .eq ∧ p ≠ q) ∧
      (¬ a.Blurred b → a.compareTo b = .ok (compare p q)) := by
  obtain ⟨x, hx, hp⟩ := Option.bind_eq_some_iff.mp ha
  obtain ⟨y, hy, hq⟩ := Option.bind_eq_some_iff.mp hb
  obtain ⟨hequal, hexact⟩ := compareNumbers_exact hp hq
  have hblurred : a.Blurred b ↔ x.Blurred y := by
    refine ⟨?_, fun hxy => ⟨x, y, hx, hy, hxy⟩⟩
    rintro ⟨x', y', hx', hy', hxy⟩
    cases hx.symm.trans hx'
    cases hy.symm.trans hy'
    exact hxy
  rw [compareTo_of_numbers hx hy, hblurred]
  exact ⟨hequal, hexact⟩

theorem Blurred.symm (hblurred : a.Blurred b) : b.Blurred a := by
  obtain ⟨x, y, hx, hy, hxy⟩ := hblurred
  exact ⟨y, x, hy, hx, hxy.symm⟩

theorem atMost_iff (ha : a.toRat? = some p) (hb : b.toRat? = some q) (hclear : ¬ a.Blurred b) :
    a.AtMost b ↔ p ≤ q := by
  rw [AtMost, (compareTo_of_exact ha hb).2 hclear, ← compare_le_iff_le]
  constructor
  · rintro ⟨order, horder, hle⟩
    cases horder
    exact hle
  · exact fun hle => ⟨_, rfl, hle⟩

/-- Two ints or decimals are ordered one way or the other. -/
theorem atMost_total (ha : a.toRat? = some p) (hb : b.toRat? = some q) :
    a.AtMost b ∨ b.AtMost a := by
  by_cases hblurred : a.Blurred b
  · exact Or.inl ⟨.eq, ((compareTo_of_exact ha hb).1 hblurred).1, by decide⟩
  · rw [atMost_iff ha hb hblurred, atMost_iff hb ha fun hsymm => hblurred hsymm.symm]
    exact le_total p q

/-- Two ints or decimals are always ordered, and as their exact values are, except for an int beyond
the decimals, by no more than `2 ^ 43`, and a decimal of the same sign within `2 ^ 42` of the end of
its range: these count as equal, though they never are.  So the order is total, and it is transitive
where no such pair is among the values. -/
theorem compareTo_exact (ha : a.toRat? = some p) (hb : b.toRat? = some q)
    (hc : c.toRat? = some r) :
    (a.Blurred b → a.compareTo b = .ok .eq ∧ p ≠ q) ∧
      (¬ a.Blurred b → a.compareTo b = .ok (compare p q)) ∧
      (a.AtMost b ∨ b.AtMost a) ∧
      (¬ a.Blurred b → ¬ b.Blurred c → ¬ a.Blurred c → a.AtMost b → b.AtMost c → a.AtMost c) := by
  obtain ⟨hequal, hexact⟩ := compareTo_of_exact ha hb
  refine ⟨hequal, hexact, atMost_total ha hb, fun hab hbc hac => ?_⟩
  rw [atMost_iff ha hb hab, atMost_iff hb hc hbc, atMost_iff ha hc hac]
  exact le_trans

/-- A decimal, an int within the decimals and an int beyond them. -/
theorem compareTo_exact_mixed :
    let a : Value := .decimal ⟨false, 250, 2, by decide, by decide⟩
    a.compareTo (.int 3) = .ok .lt ∧ a.AtMost (.int (10 ^ 30)) := by
  intro a
  have ha : a.toRat? = some (5 / 2) := by
    refine congrArg some ?_
    show ((250 : ℤ) : ℚ) / 10 ^ 2 = 5 / 2
    norm_num
  have hab : ¬ a.Blurred (.int 3) := by
    rintro ⟨x, y, hx, hy, hxy⟩
    cases hx
    cases hy
    exact absurd hxy.1 (by decide)
  have hbc : ¬ (Value.int 3).Blurred (.int (10 ^ 30)) := by
    rintro ⟨x, y, hx, hy, hxy⟩
    cases hx
    cases hy
    exact hxy
  have hac : ¬ a.Blurred (.int (10 ^ 30)) := by
    rintro ⟨x, y, hx, hy, hxy⟩
    cases hx
    cases hy
    exact absurd hxy.2.1 (by decide)
  obtain ⟨_, hexact, _, htrans⟩ := compareTo_exact (b := .int 3) (c := .int (10 ^ 30)) ha rfl rfl
  have hlt : compare (5 / 2 : ℚ) ((3 : ℤ) : ℚ) = .lt := compare_lt_iff_lt.mpr (by norm_num)
  have horder := hexact hab
  rw [hlt] at horder
  refine ⟨horder, htrans hab hbc hac ⟨.lt, horder, by decide⟩ ?_⟩
  exact ⟨.lt, rfl, by decide⟩

/-- The least int beyond the decimals counts as equal to the largest decimal. -/
theorem compareTo_beyond_decimals :
    let last : Decimal := ⟨false, 2 ^ 96 - 1, 0, by decide, by decide⟩
    (Value.int (2 ^ 96)).compareTo (.decimal last) = .ok .eq ∧
      (Value.int (2 ^ 96)).toRat? = some (2 ^ 96) ∧
      (Value.decimal last).toRat? = some (2 ^ 96 - 1) ∧ (2 ^ 96 : ℚ) ≠ 2 ^ 96 - 1 := by
  intro last
  have hcheck : ((Value.int (2 ^ 96)).compareTo (.decimal last)).toOption.any (· == .eq) = true := by
    decide +kernel
  obtain ⟨order, horder, heq⟩ := exists_of_any hcheck
  obtain rfl := beq_iff_eq.mp heq
  refine ⟨horder, congrArg some ?_, congrArg some ?_, by norm_num⟩
  · norm_num
  · show ((2 ^ 96 - 1 : ℕ) : ℤ) / (10 : ℚ) ^ 0 = 2 ^ 96 - 1
    norm_num

end Value

end DocQuery
