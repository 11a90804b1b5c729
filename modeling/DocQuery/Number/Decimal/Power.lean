import DocQuery.Number.Decimal.Arithmetic

/-!
# Decimal powers

Whole exponents multiply repeated squares. Other exponents go through the exponential and
the logarithm, each a series cut off where its terms no longer matter.
-/

namespace DocQuery.Number.Decimal

/-- Multiplies `product` by `power ^ e`: for each bit of `e` from the lowest, the square of
the power, then the product where the bit is set. `fuel` bounds the number of bits. -/
def powerBits : Nat → Nat → Decimal → Decimal → Option Decimal
  | 0, _, _, product => some product
  | fuel + 1, e, power, product =>
    if e = 0 then some product
    else do
      let product ← if e % 2 = 1 then mul? product power else some product
      if e / 2 = 0 then some product
      else powerBits fuel (e / 2) (← mul? power power) product

/-- A whole power. The results for exponents one and two are not stripped of zeros. -/
def powNat? (a : Decimal) (e : Nat) : Option Decimal :=
  if e = 0 then some one
  else if a.isZero then some zero
  else if a.equal one then some one
  else if e = 1 then some a
  else if e = 2 then mul? a a
  else (powerBits (e.log2 + 1) e a one).map normalize

/-- A negative exponent takes the reciprocal of the positive power. -/
def powInt? (a : Decimal) (e : Int) : Option Decimal :=
  if 0 ≤ e then powNat? a e.toNat
  else (powNat? a e.natAbs).bind (div? one)

/-- Euler's number to 28 places. -/
def euler : Decimal := ⟨false, 27182818284590452353602874714, 28, by decide, by decide⟩

/-- The reciprocal of Euler's number to 28 places. -/
def eulerInverse : Decimal := ⟨false, 3678794411714423215955237702, 28, by decide, by decide⟩

/-- Multiplies by `1 / e` until the value is below one, counting. -/
def scaleDown : Nat → Decimal → Int → Option (Decimal × Int)
  | 0, _, _ => none
  | fuel + 1, x, k =>
    if x.compareTo one = .lt then some (x, k)
    else do scaleDown fuel (← mul? x eulerInverse) (k + 1)

/-- Multiplies by `e` until the value is above `1 / e`, counting down. -/
def scaleUp : Nat → Decimal → Int → Option (Decimal × Int)
  | 0, _, _ => none
  | fuel + 1, x, k =>
    if x.compareTo eulerInverse = .gt then some (x, k)
    else do scaleUp fuel (← mul? x euler) (k - 1)

/-- The series of `-ln (1 + x)`, term by term until a term changes nothing. -/
def logSeries (x : Decimal) : Nat → Nat → Decimal → Decimal → Option Decimal
  | 0, _, _, sum => some sum
  | fuel + 1, n, power, sum => do
    let power ← mul? power x.neg
    let divisor ← ofInt? n
    let next ← add? sum (← div? power divisor)
    if next.equal sum then some next else logSeries x fuel (n + 1) power next

/-- The natural logarithm of a positive decimal. The magnitude of a decimal lies between
`10 ^ -28` and `2 ^ 96`, so ninety steps bring it near one. -/
def ln? (a : Decimal) : Option Decimal := do
  if a.negative || a.isZero then none
  if a.equal one then return zero
  let (x, k) ← scaleDown 90 a 0
  let (x, k) ← scaleUp 90 x k
  let x ← sub? x one
  let whole ← ofInt? k
  if x.isZero then return whole
  sub? whole (← logSeries x 100 1 one zero)

/-- Terms of the exponential at most this large end its series. -/
def expTolerance : Decimal := ⟨false, 2, 7, by decide, by decide⟩

/-- The series of `e ^ x` from the term of degree `n` on; `factorial` is that of `n - 1`. -/
def expSeries (x : Decimal) : Nat → Nat → Nat → Decimal → Decimal → Option Decimal
  | 0, _, _, _, sum => some sum
  | fuel + 1, n, factorial, power, sum => do
    let power ← mul? x power
    let term ← div? power (← ofInt? (factorial * n : Nat))
    let next ← add? sum term
    let change ← sub? next sum
    if change.abs.compareTo expTolerance = .gt then
      expSeries x fuel (n + 1) (factorial * n) power next
    else some next

/-- The exponential, from at most twenty-eight terms. -/
def exp? (x : Decimal) : Option Decimal := do
  if x.isZero then return one
  let y := x.abs
  let result ← expSeries y 26 2 1 y (← add? y one)
  if x.negative then div? one result else return result

/-- A power with any exponent. The sign of the base is kept where the exponent is no whole
number, and a whole exponent beyond 32 bits is too large. -/
def pow? (a b : Decimal) : Option Decimal :=
  if b.isZero then some one
  else if a.isZero then some zero
  else if a.equal one then some one
  else if b.equal one then some a
  else
    let e := b.normalize
    if e.scale = 0 then
      if e.coefficient < 2 ^ 32 then powInt? a e.signed else none
    else do
      let result ← exp? (← mul? (← ln? a.abs) e)
      some { result with negative := a.negative }

end DocQuery.Number.Decimal
