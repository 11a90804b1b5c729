import DocQuery.EvalError
import DocQuery.Number.Binary64.Arithmetic
import DocQuery.Number.Decimal.Arithmetic
import DocQuery.Number.Decimal.Power

/-!
# Arithmetic on values

Two numbers are computed with in their common form. Division of ints cuts off toward zero.
Floats are computed as decimals where these hold them, so that sums of short decimal fractions
are exact. Times can be added and subtracted.
-/

namespace DocQuery

open Number Time

namespace ArithmeticOperator

/-- The largest power of ints, in bits. -/
def maxPowerBits : Nat := 2 ^ 20

/-- The number of bits of a number. -/
def bitLength (n : Nat) : Nat :=
  if n = 0 then 0 else n.log2 + 1

/-- A power of ints. With a negative exponent it is cut off toward zero. -/
def powInt (a b : Int) : Except EvalError Int :=
  if a = 0 then
    if b < 0 then .error .divisionByZero else .ok (if b = 0 then 1 else 0)
  else if a = 1 then .ok 1
  else if a = -1 then .ok (if b % 2 = 0 then 1 else -1)
  else if b < 0 then .ok 0
  else if b < 2 ^ 32 ∧ bitLength a.natAbs * b.toNat ≤ maxPowerBits then .ok (a ^ b.toNat)
  else .error (.overflow (.power a b))

/-- An operation on ints. -/
def applyInt (op : ArithmeticOperator) (a b : Int) : Except EvalError Int :=
  match op with
  | add => .ok (a + b)
  | subtract => .ok (a - b)
  | multiply => .ok (a * b)
  | divide => if b = 0 then .error .divisionByZero else .ok (a.tdiv b)
  | modulus => if b = 0 then .error .divisionByZero else .ok (a.tmod b)
  | power => powInt a b

/-- A power of decimals. -/
def powDecimal? (a b : Decimal) : Option Decimal :=
  match b.isIntegral, b.toInt64? with
  | true, some exponent => a.powInt? exponent
  | _, _ => a.pow? b

/-- An operation on decimals. -/
def applyDecimal (op : ArithmeticOperator) (a b : Decimal) : Except EvalError Decimal :=
  let orOverflow (result : Option Decimal) : Except EvalError Decimal :=
    match result with
    | some d => .ok d
    | none => .error (.overflow (.decimal op a b))
  match op with
  | add => orOverflow (a.add? b)
  | subtract => orOverflow (a.sub? b)
  | multiply => orOverflow (a.mul? b)
  | divide => if b.isZero then .error .divisionByZero else orOverflow (a.div? b)
  | modulus => if b.isZero then .error .divisionByZero else orOverflow (a.rem? b)
  | power =>
    if a.isZero && b.negative then .error .divisionByZero else orOverflow (powDecimal? a b)

/-- An operation on floats as such. -/
def applyBinary64 (op : ArithmeticOperator) (a b : Binary64) : Binary64 :=
  match op with
  | add => a.add b
  | subtract => a.sub b
  | multiply => a.mul b
  | divide => a.div b
  | modulus => a.rem b
  | power => a.pow b

/-- The result of an operation on two floats as decimals, where there is one. -/
def viaDecimals? (op : ArithmeticOperator) (a b : Binary64) : Option Binary64 := do
  let x ← Decimal.ofBinary64? a
  let y ← Decimal.ofBinary64? b
  let exact ← (op.applyDecimal x y).toOption
  some exact.toBinary64

/-- An operation on floats. All but powers are tried with decimals first. -/
def applyFloat (op : ArithmeticOperator) (a b : Binary64) : Except EvalError Binary64 :=
  if (op = divide ∨ op = modulus) ∧ b.isZero then .error .divisionByZero
  else if op = power then .ok (op.applyBinary64 a b)
  else .ok ((op.viaDecimals? a b).getD (op.applyBinary64 a b))

/-- An operation on two numbers. -/
def applyNumbers (op : ArithmeticOperator) (a b : Numeric) : Except EvalError Value :=
  match a.coerce b with
  | .int x y => Value.int <$> op.applyInt x y
  | .float x y => Value.float <$> op.applyFloat x y
  | .decimal x y => Value.decimal <$> op.applyDecimal x y

/-- The kind of what is missing where an operand is missing. -/
def missingKind (static : StaticKind) (left right : Kind) : Kind :=
  match static.concrete? with
  | some kind => kind
  | none =>
    if left.isNumeric && right.isNumeric then Numeric.commonKind left right else .decimal

/-- An operation on values; `static` is the static kind of the result. -/
def apply (op : ArithmeticOperator) (static : StaticKind) (left right : Value) :
    Except EvalError Value :=
  if left.isNull || right.isNull then
    .ok (.null (missingKind static left.kind right.kind))
  else
    match left.numeric?, right.numeric? with
    | some a, some b => op.applyNumbers a b
    | _, _ => .error (.mismatch (.cannotApply op left right))

end ArithmeticOperator

namespace TemporalOperator

/-- The operator on numbers with the same sign. -/
def sign : TemporalOperator → ArithmeticOperator
  | add => .add
  | subtract => .subtract

/-- The kind of what is missing where an operand is missing. -/
def missingKind (static : StaticKind) (left right : Kind) : Kind :=
  match static with
  | .duration => .duration
  | .timestamp => .timestamp
  | _ =>
    match left, right with
    | .timestamp, .timestamp | .duration, .duration => .duration
    | _, _ => .timestamp

/-- An operation on values; `static` is the static kind of the result. -/
def apply (op : TemporalOperator) (static : StaticKind) (left right : Value) :
    Except EvalError Value :=
  let orOverflow (result : Option Value) : Except EvalError Value :=
    match result with
    | some v => .ok v
    | none => .error (.overflow (.temporal left right))
  if left.isNull || right.isNull then
    .ok (.null (missingKind static left.kind right.kind))
  else
    match left, right, op with
    | .scalar _ (.timestamp t), .scalar _ (.duration d), add =>
      orOverflow ((t.add? d).map Value.timestamp)
    | .scalar _ (.timestamp t), .scalar _ (.duration d), subtract =>
      orOverflow ((t.sub? d).map Value.timestamp)
    | .scalar _ (.timestamp a), .scalar _ (.timestamp b), subtract =>
      .ok (.duration (a.since b))
    | .scalar _ (.duration a), .scalar _ (.duration b), add =>
      orOverflow ((a.add? b).map Value.duration)
    | .scalar _ (.duration a), .scalar _ (.duration b), subtract =>
      orOverflow ((a.sub? b).map Value.duration)
    | _, _, _ => .error (.mismatch (.cannotApply op.sign left right))

end TemporalOperator

end DocQuery
