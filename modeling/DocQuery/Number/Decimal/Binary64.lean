import DocQuery.Number.Decimal
import DocQuery.Number.Binary64.Arithmetic

/-!
# Between decimals and double precision numbers

`ofBinary64?` turns `m * 2 ^ e` into `m' * 10 ^ e'` by trading powers of two for powers of
ten, and keeps about as many digits as the number is worth. `toBinary64` adds whole part and
fraction and rounds the sum to the scale of the decimal.
-/

namespace DocQuery.Number.Decimal

/-- Trades `n` powers of two below the point for powers of ten: an even coefficient is halved,
an odd one multiplied by five, or halved with loss when there is no room. -/
def tradeHalves : Nat → Nat → Int → Nat × Int
  | 0, m, e => (m, e)
  | n + 1, m, e =>
    if m % 2 = 0 then tradeHalves n (m / 2) (e + 1)
    else if 5 * m < bound then tradeHalves n (5 * m) e
    else tradeHalves n (m / 2) (e + 1)

/-- Trades `n` powers of two above the point: the coefficient is doubled, or divided by five
when there is no room. -/
def tradeDoubles : Nat → Nat → Int → Option (Nat × Int)
  | 0, m, e => some (m, e)
  | n + 1, m, e =>
    if m < 2 ^ 95 then tradeDoubles n (2 * m) (e - 1)
    else if n + 1 < 2 * e then none
    else tradeDoubles n (m / 5) e

/-- Multiplies out `n` powers of ten. -/
def raise : Nat → Nat → Option Nat
  | 0, m => some m
  | n + 1, m => if 10 * m < bound then raise n (10 * m) else none

/-- Drops the last digit, rounding half up. -/
def dropDigit (m : Nat) : Nat :=
  roundDiv .up m 10

/-- Brings the exponent up to `-28`; a coefficient that vanishes takes exponent zero. -/
def raiseToScale : Nat → Nat → Int → Nat × Int
  | 0, m, e => (m, e)
  | fuel + 1, m, e =>
    if e < -maxScale then
      if m / 10 = 0 then (0, 0) else raiseToScale fuel (dropDigit m) (e + 1)
    else (m, e)

/-- Drops digits of the fraction beyond 52 bits. -/
def dropExcess : Nat → Nat → Int → Nat × Int
  | 0, m, e => (m, e)
  | fuel + 1, m, e =>
    if e < 0 ∧ 2 ^ 52 ≤ m then dropExcess fuel (dropDigit m) (e + 1) else (m, e)

/-- Drops zeros at the end of the fraction. -/
def dropTrailing : Nat → Nat → Int → Nat × Int
  | 0, m, e => (m, e)
  | fuel + 1, m, e =>
    if e < 0 ∧ m % 10 = 0 then dropTrailing fuel (m / 10) (e + 1) else (m, e)

/-- The decimal that stands for a number; none for what is not finite or out of range. -/
def ofBinary64? : Binary64 → Option Decimal
  | .nan | .infinity _ => none
  | .finite negative s e _ =>
    if s = 0 then make? negative 0 0
    else do
      let binary : Int := e - 1074
      let (m, e) ←
        if binary < 0 then some (tradeHalves (-binary).toNat s binary)
        else tradeDoubles binary.toNat s binary
      let (m, e) ← if 0 < e then (raise e.toNat m).map (·, 0) else some (m, e)
      -- First the scale is made to fit, then digits beyond double precision go.
      let (m, e) := raiseToScale (-e).toNat m e
      let (m, e) := dropExcess maxScale m e
      let (m, e) := dropTrailing maxScale m e
      make? negative m (-e).toNat

/-- `10 ^ n` by repeated squaring in double precision. -/
def powerOfTen : Nat → Nat → Binary64 → Binary64 → Binary64
  | 0, _, _, result => result
  | fuel + 1, n, base, result =>
    let result := if n % 2 = 1 then result.mul base else result
    if n / 2 = 0 then result else powerOfTen fuel (n / 2) (base.mul base) result

/-- The nearest whole number, halves away from zero. -/
def roundToWhole (x : Binary64) : Binary64 :=
  .ofInt (roundDiv .up x.units Binary64.unitsPerOne)

/-- The magnitude of a decimal in double precision. -/
def magnitude64 (d : Decimal) : Binary64 :=
  let unit := 10 ^ d.scale
  let whole := Binary64.ofInt (d.coefficient / unit : Nat)
  let fraction := (Binary64.ofInt (d.coefficient % unit : Nat)).div (Binary64.ofInt unit)
  if d.scale = 0 || fraction.isZero then whole
  else
    let power := powerOfTen 5 d.scale (.ofInt 10) (.ofInt 1)
    (roundToWhole ((whole.add fraction).mul power)).div power

/-- The double precision number that stands for a decimal; only a zero with a fraction keeps
its sign. -/
def toBinary64 (d : Decimal) : Binary64 :=
  if d.negative && !(d.isZero && d.scale == 0) then d.magnitude64.neg else d.magnitude64

end DocQuery.Number.Decimal
