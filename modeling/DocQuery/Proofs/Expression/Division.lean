import DocQuery.Proofs.Expression.Operands
import DocQuery.Proofs.Number.Decimal.Counterparts
import DocQuery.Proofs.Number.Decimal.Vanishing
import DocQuery.Proofs.Value.Order

/-!
# Division by zero

Each operation on numbers looks at the divisor in the common form of both operands.  On the way there
a zero stays one, and no other number becomes one, with one exception: beside a decimal, a float that
is too small for decimals is brought to decimals all the same.

Main names:

* `Numeric.divisorIsZero_coerce` — when the divisor is a zero in the common form;
* `ArithmeticOperator.division_fails_iff` — when division reports that it is by zero.
-/

namespace DocQuery

open Number

/-- Whether a number is zero. -/
def Numeric.isZero : Numeric → Bool
  | int n => n == 0
  | float x => x.isZero
  | decimal d => d.isZero

/-- Whether a number is a float that is not zero, but whose decimal is. -/
def Numeric.vanishes : Numeric → Bool
  | float x => x.vanishes
  | _ => false

/-- Whether the second number of a pair is zero. -/
def NumericPair.divisorIsZero : NumericPair → Bool
  | int _ b => b == 0
  | float _ b => b.isZero
  | decimal _ b => b.isZero

/-! ## Zeros in the common form -/

namespace Numeric

theorem isZero_toFloat (x : Numeric) : x.toFloat.isZero = x.isZero := by
  cases x with
  | int n =>
      rw [Bool.eq_iff_iff]
      exact (Binary64.isZero_ofInt n).trans beq_iff_eq.symm
  | float x => rfl
  | decimal d => exact d.isZero_toBinary64

theorem isZero_of_ofInt {n : Int} {d : Decimal} (hd : Decimal.ofInt? n = some d) :
    d.isZero = (n == 0) := by
  obtain ⟨_, hcoefficient⟩ := Decimal.eq_of_make hd
  rw [Bool.eq_iff_iff, Decimal.isZero, beq_iff_eq, beq_iff_eq, hcoefficient]
  exact Int.natAbs_eq_zero

theorem isZero_of_ofBinary64 {x : Binary64} {d : Decimal} (hd : Decimal.ofBinary64? x = some d) :
    d.isZero = (x.isZero || x.vanishes) := by
  have hvanishes : x.vanishes = (!x.isZero && d.isZero) := by
    rw [Binary64.vanishes, hd]
    rfl
  cases hx : x.isZero with
  | false => rw [hvanishes, hx, Bool.false_or, Bool.not_false, Bool.true_and]
  | true =>
      cases x with
      | nan => cases hx
      | infinity => cases hx
      | finite negative s e hcanonical =>
          rw [Decimal.ofBinary64?, if_pos (beq_iff_eq.mp hx)] at hd
          obtain ⟨_, hcoefficient⟩ := Decimal.eq_of_make hd
          rw [Decimal.isZero, hcoefficient]
          rfl

/-- The decimal of a number is zero if the number is, or if it vanishes. -/
theorem isZero_of_toDecimal {x : Numeric} {d : Decimal} (hd : x.toDecimal? = some d) :
    d.isZero = (x.isZero || x.vanishes) := by
  cases x with
  | int n => exact (isZero_of_ofInt hd).trans (Bool.or_false _).symm
  | float x => exact isZero_of_ofBinary64 hd
  | decimal d' =>
      cases hd
      exact (Bool.or_false _).symm

theorem vanishes_of_no_decimal {x : Numeric} (hx : x.toDecimal? = none) : x.vanishes = false := by
  cases x with
  | int => rfl
  | decimal => rfl
  | float x =>
      change Decimal.ofBinary64? x = none at hx
      rw [vanishes, Binary64.vanishes, hx]
      exact Bool.and_false _

theorem vanishes_of_decimal {x : Numeric} (hx : x.kind = .decimal) : x.vanishes = false := by
  cases x with
  | int => rfl
  | decimal => rfl
  | float => cases hx

/-- The divisor is a zero in the common form if it is one, or if it vanishes beside a decimal. -/
theorem divisorIsZero_coerce (x y : Numeric) :
    (x.coerce y).divisorIsZero = true ↔
      y.isZero = true ∨ x.kind = .decimal ∧ y.vanishes = true := by
  rcases coerce_cases x y with
    ⟨m, n, rfl, rfl, hform⟩ | ⟨hform, hnone⟩ | ⟨d, e, hform, hx, hy, hkind⟩
  · rw [hform]
    exact ⟨Or.inl, fun hzero => hzero.resolve_right fun hvanishes => nomatch hvanishes.1⟩
  · rw [hform, NumericPair.divisorIsZero, isZero_toFloat]
    refine ⟨Or.inl, fun hzero => hzero.resolve_right ?_⟩
    -- A decimal beside which the pair becomes one of floats has a divisor without a decimal.
    rintro ⟨hdecimal, hvanishes⟩
    cases x with
    | int => cases hdecimal
    | float => cases hdecimal
    | decimal d =>
        have hy := (hnone (Or.inl hdecimal)).resolve_left (Option.some_ne_none d)
        rw [vanishes_of_no_decimal hy] at hvanishes
        cases hvanishes
  · rw [hform, NumericPair.divisorIsZero, isZero_of_toDecimal hy, Bool.or_eq_true]
    refine or_congr_right ⟨fun hvanishes => ⟨hkind.resolve_right fun hdecimal => ?_, hvanishes⟩,
      fun hvanishes => hvanishes.2⟩
    rw [vanishes_of_decimal hdecimal] at hvanishes
    cases hvanishes

end Numeric

/-! ## Division -/

/-- What is made of a result leaves its failures as they are. -/
theorem EvalError.map_eq_error_iff {α β : Type} {result : Except EvalError α} {f : α → β}
    {error : EvalError} : f <$> result = .error error ↔ result = .error error := by
  refine ⟨map_eq_error, fun herror => ?_⟩
  rw [herror]
  rfl

/-- A value that holds a number is not missing. -/
theorem Value.isNull_of_numeric {v : Value} {x : Numeric} (hv : v.numeric? = some x) :
    v.isNull = false := by
  rcases v with ⟨_, content⟩ | _ | _
  · cases content with
    | null => cases hv
    | _ => rfl
  · rfl
  · rfl

namespace ArithmeticOperator

variable {op : ArithmeticOperator}

/-- Whatever else goes wrong in dividing decimals is that the result is too large. -/
theorem applyDecimal_eq_divisionByZero_iff (hop : op = divide ∨ op = modulus) (a b : Decimal) :
    op.applyDecimal a b = .error .divisionByZero ↔ b.isZero = true := by
  rcases hop with rfl | rfl
  · cases hb : b.isZero with
    | true => simp [applyDecimal, hb]
    | false => cases hresult : a.div? b <;> simp [applyDecimal, hb, hresult]
  · cases hb : b.isZero with
    | true => simp [applyDecimal, hb]
    | false => cases hresult : a.rem? b <;> simp [applyDecimal, hb, hresult]

theorem applyInt_eq_divisionByZero_iff (hop : op = divide ∨ op = modulus) (a b : Int) :
    op.applyInt a b = .error .divisionByZero ↔ b = 0 := by
  rcases hop with rfl | rfl
  all_goals by_cases hb : b = 0 <;> simp [applyInt, hb]

theorem applyFloat_eq_divisionByZero_iff (hop : op = divide ∨ op = modulus) (a b : Binary64) :
    op.applyFloat a b = .error .divisionByZero ↔ b.isZero = true := by
  rcases hop with rfl | rfl
  all_goals cases hb : b.isZero <;> simp [applyFloat, hb]

/-- Every operation tests its own divisor, and only that. -/
theorem applyNumbers_eq_divisionByZero_iff (hop : op = divide ∨ op = modulus) (x y : Numeric) :
    op.applyNumbers x y = .error .divisionByZero ↔ (x.coerce y).divisorIsZero = true := by
  unfold applyNumbers
  cases x.coerce y with
  | int a b =>
      rw [NumericPair.divisorIsZero, beq_iff_eq, ← applyInt_eq_divisionByZero_iff hop a]
      exact EvalError.map_eq_error_iff
  | float a b =>
      rw [NumericPair.divisorIsZero, ← applyFloat_eq_divisionByZero_iff hop a]
      exact EvalError.map_eq_error_iff
  | decimal a b =>
      rw [NumericPair.divisorIsZero, ← applyDecimal_eq_divisionByZero_iff hop a]
      exact EvalError.map_eq_error_iff

theorem apply_of_numbers (op : ArithmeticOperator) (static : StaticKind) {a b : Value}
    {x y : Numeric} (ha : a.numeric? = some x) (hb : b.numeric? = some y) :
    op.apply static a b = op.applyNumbers x y := by
  rw [apply, Value.isNull_of_numeric ha, Value.isNull_of_numeric hb, ha, hb]
  rfl

/-- Division reports that it is by zero for a divisor that is zero and, beside a decimal, for a float
that vanishes; else it does not.  Such a float lies below the least positive decimal, and every float
that is not zero vanishes if it is at most nine tenths of that. -/
theorem division_fails_iff (hop : op = divide ∨ op = modulus) (static : StaticKind) {a b : Value}
    {x y : Numeric} (ha : a.numeric? = some x) (hb : b.numeric? = some y) :
    (op.apply static a b = .error .divisionByZero ↔
        y.isZero = true ∨ x.kind = .decimal ∧ y.vanishes = true) ∧
      ∀ f, y = .float f →
        (y.vanishes = true → y.isZero = false ∧ f.units * 10 ^ 28 < Binary64.unitsPerOne) ∧
        (f.isFinite = true → y.isZero = false → f.units * 10 ^ 29 ≤ 9 * Binary64.unitsPerOne →
          y.vanishes = true) := by
  refine ⟨?_, ?_⟩
  · rw [apply_of_numbers op static ha hb, applyNumbers_eq_divisionByZero_iff hop]
    exact Numeric.divisorIsZero_coerce x y
  · rintro f rfl
    refine ⟨fun hvanishes => ⟨?_, Binary64.units_lt_of_vanishes hvanishes⟩,
      Binary64.vanishes_of_units_le⟩
    have hsome := (Bool.and_eq_true_iff.mp hvanishes).1
    rw [Bool.not_eq_true'] at hsome
    exact hsome

/-- A decimal modulo a float that vanishes, and an int modulo the same float. -/
theorem division_fails_iff_vanishing :
    let tiny : Binary64 := .ofScientific false 5 (-31)
    modulus.apply .decimal (.decimal .one) (.float tiny) = .error .divisionByZero ∧
      tiny.units * 10 ^ 28 < Binary64.unitsPerOne ∧
      modulus.apply .float (.int 1) (.float tiny) ≠ .error .divisionByZero := by
  intro tiny
  have hfinite : tiny.isFinite = true := by decide +kernel
  have hsome : tiny.isZero = false := by decide +kernel
  have hsmall : tiny.units * 10 ^ 29 ≤ 9 * Binary64.unitsPerOne := by decide +kernel
  obtain ⟨hdecimal, hbounds⟩ :=
    division_fails_iff (Or.inr rfl) .decimal (a := .decimal .one) (b := .float tiny) rfl rfl
  obtain ⟨hint, _⟩ :=
    division_fails_iff (Or.inr rfl) .float (a := .int 1) (b := .float tiny) rfl rfl
  have hvanishes := (hbounds tiny rfl).2 hfinite hsome hsmall
  refine ⟨hdecimal.mpr (Or.inr ⟨rfl, hvanishes⟩), ((hbounds tiny rfl).1 hvanishes).2, fun hzero => ?_⟩
  rcases hint.mp hzero with hzero | ⟨hkind, _⟩
  · exact absurd (hzero.symm.trans hsome) (by decide)
  · cases hkind

/-- One as a decimal cannot be divided by a float that is not zero. -/
theorem division_by_tiny_float_fails :
    divide.apply .decimal (.decimal .one) (.float (.ofScientific false 1 (-30))) =
        .error .divisionByZero ∧
      (Binary64.ofScientific false 1 (-30)).isZero = false := by
  refine ⟨?_, by decide +kernel⟩
  rw [apply_of_numbers _ _ (x := .decimal .one) rfl rfl,
    applyNumbers_eq_divisionByZero_iff (Or.inl rfl)]
  decide +kernel

end ArithmeticOperator

end DocQuery
