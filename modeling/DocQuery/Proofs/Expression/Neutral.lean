import DocQuery.Expression.Evaluate
import DocQuery.Proofs.Expression.Division
import DocQuery.Proofs.Number.Decimal.Returning
import DocQuery.Proofs.Sequencing

/-!
# Operands that change nothing

A float times one, divided by one, or with a zero added to it or subtracted from it is that float, if
the operation is done on floats. Floats are computed with as decimals where these hold them, and then
the result is the float of the decimal of the operand, which need not be the operand. So the result
is what it should be for the floats that come back from their decimals, and for no others.

Main names:

* `ArithmeticOperator.neutral?` — the operand that changes nothing;
* `ArithmeticOperator.applyDecimal_neutral`, `ArithmeticOperator.applyBinary64_neutral` — what it does
  to decimals and to floats;
* `Expression.evaluate_neutral` — what it does to a float that is computed with as a decimal.
-/

namespace DocQuery

open Number

namespace Number.Decimal

theorem excess_of_fits {m s : Nat} (hm : m < bound) (hs : s ≤ 28) (fuel : Nat) :
    excess m s fuel 0 = 0 := by
  cases fuel with
  | zero => rfl
  | succ fuel =>
      have hfits : ¬ (28 < s - 0 ∨ 2 ^ 96 ≤ m / 10 ^ 0) := by
        rw [Nat.pow_zero, Nat.div_one]
        exact not_or.mpr ⟨Nat.not_lt.mpr hs, Nat.not_le.mpr hm⟩
      rw [excess, if_neg hfits]

theorem make_eq (d : Decimal) : make? d.negative d.coefficient d.scale = some d :=
  dif_pos ⟨d.coefficient_lt, d.scale_le⟩

/-- What is in range is left as it is. -/
theorem shrink_of_fits (d : Decimal) :
    shrink? d.negative d.coefficient d.scale = some d := by
  have hround : roundDiv .even d.coefficient 1 = d.coefficient := by
    have hmul : roundDiv .even (d.coefficient * 1) 1 = d.coefficient := roundDiv_mul Nat.one_pos _
    rwa [Nat.mul_one] at hmul
  unfold shrink?
  simp only [excess_of_fits d.coefficient_lt d.scale_le, Nat.pow_zero, hround]
  rw [if_neg (Nat.not_lt_zero _), if_pos d.coefficient_lt]
  exact d.make_eq

/-- The same number, where a zero is the plain one. -/
def settle (d : Decimal) : Decimal :=
  if d.isZero then zero else d

theorem isZero_settle (d : Decimal) : d.settle.isZero = d.isZero := by
  unfold settle
  split
  · rename_i hzero
    exact hzero.symm
  · rfl

theorem mul?_one (d : Decimal) : d.mul? one = some d.settle := by
  cases hzero : d.isZero with
  | true => rw [mul?, settle, hzero]; rfl
  | false =>
      have hscale := d.scale_le
      have hlimit : ¬ maxScale + 19 < d.scale + one.scale := by
        show ¬ 28 + 19 < d.scale + 0
        omega
      have hshrink : shrink? (d.negative != one.negative) (d.coefficient * one.coefficient)
          (d.scale + one.scale) = some d := by
        show shrink? (d.negative != false) (d.coefficient * 1) (d.scale + 0) = some d
        rw [Bool.bne_false, Nat.mul_one, Nat.add_zero]
        exact d.shrink_of_fits
      have hone : one.isZero = false := rfl
      rw [mul?, settle, hzero, hone, Bool.or_false, if_neg Bool.false_ne_true]
      simp only [hshrink, Option.map_some, hzero, Bool.and_false]
      rw [decide_eq_false hlimit, Bool.and_false]
      rfl

theorem div?_one (d : Decimal) : d.div? one = some d.settle := by
  cases hzero : d.isZero with
  | true => rw [div?, settle, hzero]; rfl
  | false =>
      have hone : one.isZero = false := rfl
      -- There is no remainder, so no digit is developed.
      have hdevelop : (⟨d.coefficient, 0, d.scale, false⟩ : Quotient).develop 1 60 =
          some ⟨d.coefficient, 0, d.scale, false⟩ := by
        rw [Quotient.develop, if_pos rfl, if_pos (Int.natCast_nonneg d.scale)]
      have hstart : (⟨d.coefficient / one.coefficient, d.coefficient % one.coefficient,
          d.scale - one.scale, false⟩ : Quotient) = ⟨d.coefficient, 0, d.scale, false⟩ := by
        show (⟨d.coefficient / 1, d.coefficient % 1, (d.scale : Int) - 0, false⟩ : Quotient) = _
        rw [Nat.div_one, Nat.mod_one, Int.sub_zero]
      rw [div?, settle, hzero, hone, if_neg Bool.false_ne_true, if_neg Bool.false_ne_true]
      simp only [hstart]
      show (Quotient.develop 1 60 _).bind _ = some d
      rw [hdevelop]
      show make? (d.negative != false) d.coefficient ((d.scale : Int).toNat) = some d
      rw [Bool.bne_false, Int.toNat_natCast]
      exact d.make_eq

theorem add?_zero (d : Decimal) : d.add? zero = some d.settle := by
  cases hzero : d.isZero with
  | true => rw [add?, settle, hzero]; rfl
  | false => rw [add?, settle, hzero]; rfl

theorem sub?_zero (d : Decimal) : d.sub? zero = some d.settle := by
  cases hzero : d.isZero with
  | true => rw [sub?, settle, hzero]; rfl
  | false => rw [sub?, settle, hzero]; rfl

/-- The float of a decimal is equal to a float whether or not a zero has its sign and its scale. -/
theorem equal_settle (d : Decimal) {x : Binary64} (hx : x.isFinite = true) :
    d.settle.toBinary64.equal x = d.toBinary64.equal x := by
  cases hzero : d.isZero with
  | false => rw [settle, hzero, if_neg Bool.false_ne_true]
  | true =>
      have hsettled := d.isZero_settle.trans hzero
      rw [Bool.eq_iff_iff,
        Binary64.equal_of_isZero (d.settle.isZero_toBinary64.trans hsettled) hx,
        Binary64.equal_of_isZero (d.isZero_toBinary64.trans hzero) hx]

end Number.Decimal

namespace ArithmeticOperator

variable {op : ArithmeticOperator} {n x : Binary64}

/-- The operand that, on the right of an operation, changes nothing. -/
def neutral? : ArithmeticOperator → Option Binary64
  | add | subtract => some (.zero false)
  | multiply | divide => some .one
  | modulus | power => none

/-- On floats as such it changes nothing. -/
theorem applyBinary64_neutral (hn : op.neutral? = some n) (hx : x.isFinite = true) :
    (op.applyBinary64 x n).equal x = true := by
  cases op with
  | add =>
      cases hn
      exact Binary64.equal_add_zero hx false
  | subtract =>
      cases hn
      exact Binary64.equal_add_zero hx true
  | multiply =>
      cases hn
      rw [applyBinary64, Binary64.mul_one_eq_self hx]
      exact Binary64.equal_self hx
  | divide =>
      cases hn
      rw [applyBinary64, Binary64.div_one_eq_self hx]
      exact Binary64.equal_self hx
  | modulus => cases hn
  | power => cases hn

/-- On decimals it changes nothing but how a zero is written. -/
theorem applyDecimal_neutral (hn : op.neutral? = some n) :
    ∃ d, Decimal.ofBinary64? n = some d ∧ ∀ a : Decimal, op.applyDecimal a d = .ok a.settle := by
  cases op with
  | add =>
      cases hn
      refine ⟨.zero, by decide, fun a => ?_⟩
      simp only [applyDecimal, a.add?_zero]
  | subtract =>
      cases hn
      refine ⟨.zero, by decide, fun a => ?_⟩
      simp only [applyDecimal, a.sub?_zero]
  | multiply =>
      cases hn
      refine ⟨.one, Binary64.ofBinary64_one, fun a => ?_⟩
      simp only [applyDecimal, a.mul?_one]
  | divide =>
      cases hn
      refine ⟨.one, Binary64.ofBinary64_one, fun a => ?_⟩
      have hone : Decimal.one.isZero = false := rfl
      simp only [applyDecimal, hone, a.div?_one]
      rfl
  | modulus => cases hn
  | power => cases hn

/-- Floats are computed with as decimals, so the operand that changes nothing leaves those as they
are that come back from their decimals. -/
theorem applyFloat_neutral (hn : op.neutral? = some n) (hx : x.isFinite = true) :
    ∃ y, op.applyFloat x n = .ok y ∧ y.equal x = x.returns := by
  obtain ⟨d, hd, hdecimal⟩ := applyDecimal_neutral hn
  have hplain := applyBinary64_neutral hn hx
  -- The four operators with a neutral operand try decimals before floats.
  have happly : op.applyFloat x n =
      .ok ((op.viaDecimals? x n).getD (op.applyBinary64 x n)) := by
    cases op with
    | divide => cases hn; rfl
    | modulus => cases hn
    | power => cases hn
    | _ => rfl
  refine ⟨_, happly, ?_⟩
  unfold viaDecimals? Binary64.returns
  cases ha : Decimal.ofBinary64? x with
  | none => exact hplain
  | some a =>
      rw [hd]
      show ((((op.applyDecimal a d).toOption).bind fun exact => some exact.toBinary64).getD _).equal x
        = a.toBinary64.equal x
      rw [hdecimal]
      exact a.equal_settle hx

end ArithmeticOperator

namespace Expression

variable {op : ArithmeticOperator} {n x : Binary64}

/-- The right operand is looked at with the patterns that the left one leaves. -/
theorem run_arithmetic_float {context : Context} {left : Expression} {cache cache' : Regex.Cache}
    {v : Value} {y : Binary64} (hv : v.numeric? = some (.float x))
    (hleft : (evaluate context left).run.run cache = (.ok v, cache'))
    (hy : op.applyFloat x n = .ok y) :
    (evaluate context (arithmetic op left (constant (.float n)))).run.run cache =
      (.ok (.float y), cache') := by
  have hnumbers : op.applyNumbers (.float x) (.float n) = .ok (.float y) := by
    show Value.float <$> op.applyFloat x n = _
    rw [hy]
    rfl
  rw [evaluate, run_bind, hleft]
  show ((evaluate context (constant (.float n)) >>= _).run.run cache') = _
  rw [evaluate]
  show (op.apply _ v (.float n), cache') = _
  rw [op.apply_of_numbers _ hv (y := .float n) rfl, hnumbers]

/-- A float times one, divided by one, or with a zero added or subtracted is equal to what it was
precisely if it comes back from its decimal, while the same operation on floats as such always leaves
it as it was. Whole numbers come back, and so do numbers with a short expansion; floats that are not
zero, but at most nine tenths of the least positive decimal, do not. -/
theorem evaluate_neutral (hn : op.neutral? = some n) (hx : x.isFinite = true) :
    (op.applyBinary64 x n).equal x = true ∧
      ∃ y : Binary64,
        (∀ (context : Context) (left : Expression) (v : Value) (cache cache' : Regex.Cache),
          v.numeric? = some (.float x) →
          (evaluate context left).run.run cache = (.ok v, cache') →
          (evaluate context (arithmetic op left (constant (.float n)))).run.run cache =
            (.ok (.float y), cache')) ∧
        y.equal x = x.returns ∧
        (∀ k, x.units = k * Binary64.unitsPerOne → y.equal x = true) ∧
        (∀ c k, c < 2 ^ 52 → x.units * 10 ^ k = c * Binary64.unitsPerOne → y.equal x = true) ∧
        (x.isZero = false → x.units * 10 ^ 29 ≤ 9 * Binary64.unitsPerOne → y.equal x = false) := by
  obtain ⟨y, hy, hreturns⟩ := op.applyFloat_neutral hn hx
  refine ⟨op.applyBinary64_neutral hn hx, y, ?_, hreturns, ?_, ?_, ?_⟩
  · intro context left v cache cache' hv hleft
    exact run_arithmetic_float hv hleft hy
  · intro k hk
    rw [hreturns]
    exact Binary64.returns_of_whole hx hk
  · intro c k hc hk
    rw [hreturns]
    exact Binary64.returns_of_short hx hc hk
  · intro hsome hsmall
    rw [hreturns]
    exact Binary64.not_returns_of_vanishes (Binary64.vanishes_of_units_le hx hsome hsmall)

/-- Three eighths are left as they are. -/
theorem evaluate_neutral_three_eighths :
    let x : Binary64 := .ofScientific false 375 (-3)
    ArithmeticOperator.multiply.neutral? = some .one ∧ x.isFinite = true ∧
      x.units * 10 ^ 3 = 375 * Binary64.unitsPerOne ∧
      ∃ y : Binary64, y.equal x = true ∧
        ∀ (context : Context) (cache : Regex.Cache),
          (evaluate context (arithmetic .multiply (constant (.float x)) (constant (.float .one)))).run.run
            cache = (.ok (.float y), cache) := by
  intro x
  have hfinite : x.isFinite = true := by decide +kernel
  have hunits : x.units * 10 ^ 3 = 375 * Binary64.unitsPerOne := by decide +kernel
  have hone : ArithmeticOperator.multiply.neutral? = some .one := rfl
  obtain ⟨_, y, hrun, _, _, hshort, _⟩ := evaluate_neutral hone hfinite
  exact ⟨hone, hfinite, hunits, y, hshort 375 3 (by decide) hunits,
    fun context cache => hrun context _ _ cache cache rfl rfl⟩

/-- Seventeen digits are too many. -/
theorem float_times_one_differs :
    let x : Binary64 := .ofScientific false 30000000000000004 (-17)
    x.isFinite = true ∧
      ∀ (context : Context) (cache : Regex.Cache), ∃ y : Binary64,
        (evaluate context (arithmetic .multiply (constant (.float x)) (constant (.float .one)))).run.run
          cache = (.ok (.float y), cache) ∧ y.equal x = false := by
  intro x
  refine ⟨by decide +kernel, fun context cache => ?_⟩
  have hvia : ArithmeticOperator.multiply.viaDecimals? x .one = some (.ofScientific false 3 (-1)) := by
    decide +kernel
  have happly : ArithmeticOperator.multiply.applyFloat x .one =
      .ok ((ArithmeticOperator.multiply.viaDecimals? x .one).getD (x.mul .one)) := rfl
  rw [hvia] at happly
  exact ⟨_, run_arithmetic_float rfl rfl happly, by decide +kernel⟩

end Expression

end DocQuery
