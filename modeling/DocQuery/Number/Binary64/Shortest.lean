import DocQuery.Number.Binary64
import DocQuery.Text.Digits

/-!
# The fewest digits that read back

Every real number in a certain interval around a double precision number is nearest to it.
`shortest` looks for the first decimal grid, from one digit on, that has a point in that
interval, and takes the point nearest to the number. The number itself, which lies on a fine
enough grid, is what remains when seventeen digits are not enough.
-/

namespace DocQuery.Number.Binary64

/-- A positive decimal number, `digits * 10 ^ exponent`. -/
structure Scientific where
  digits : Nat
  exponent : Int
  deriving DecidableEq, Repr

/-- `n * 10 ^ k` as a fraction. -/
def scaleByPower (n : Nat) (k : Int) : Nat × Nat :=
  if 0 ≤ k then (n * 10 ^ k.toNat, 1) else (n, 10 ^ (-k).toNat)

/-- Whether `n * 10 ^ k ≤ m / quarters`, both sides positive. -/
def powerLe (n : Nat) (k : Int) (m quarters : Nat) : Bool :=
  let (p, q) := scaleByPower n k
  p * quarters ≤ m * q

/-- The reals nearest to a number are bounded by quarters of its last place: the lower bound
is closer where the significand is the least of its exponent. -/
structure Interval where
  lower : Nat
  value : Nat
  upper : Nat
  closed : Bool

/-- How many quarters of a unit make one. -/
def quartersPerOne : Nat := 4 * unitsPerOne

/-- The interval of the reals that round to `s * 2 ^ e` units, in quarters of a unit. -/
def interval (s e : Nat) : Interval where
  lower := (4 * s - (if s = 2 ^ 52 ∧ e ≠ 0 then 1 else 2)) * 2 ^ e
  value := 4 * s * 2 ^ e
  upper := (4 * s + 2) * 2 ^ e
  closed := s % 2 = 0

/-- Whether a decimal number lies in the interval. -/
def Interval.holds (i : Interval) (d : Scientific) : Bool :=
  let (p, q) := scaleByPower d.digits d.exponent
  let n := p * quartersPerOne
  if i.closed then i.lower * q ≤ n && n ≤ i.upper * q
  else i.lower * q < n && n < i.upper * q

/-- The decimal exponent of the leading digit of the value. -/
def leadingExponent (value : Nat) : Int :=
  -- The fraction is a little above the logarithm of two: the guess is wrong by one at most.
  let guess := ((Nat.log2 value : Int) - Nat.log2 quartersPerOne) * 30103 / 100000
  if powerLe 1 (guess + 1) value quartersPerOne then guess + 1
  else if powerLe 1 guess value quartersPerOne then guess
  else guess - 1

/-- The neighbours of the value on the grid of the multiples of `10 ^ k`: the one below, and
which of the two is nearer. -/
def nearestOnGrid (tie : Tie) (i : Interval) (k : Int) : Option Scientific :=
  let (p, q) := scaleByPower quartersPerOne k
  let below := i.value * q / p
  let rest := i.value * q % p
  let down : Scientific := ⟨below, k⟩
  let up : Scientific := ⟨below + 1, k⟩
  match i.holds down, i.holds up with
  | false, false => none
  | true, false => some down
  | false, true => some up
  | true, true => some (if tie.goesUp below rest p then up else down)

/-- The first hit on the grids with `n`, `n + 1`, … digits, of which `fuel` are tried. -/
def search (tie : Tie) (i : Interval) (leading : Int) : Nat → Nat → Option Scientific
  | 0, _ => none
  | fuel + 1, n =>
    match nearestOnGrid tie i (leading - n + 1) with
    | some d => some d
    | none => search tie i leading fuel (n + 1)

/-- All digits of the exact value. -/
def exactDigits (i : Interval) : Scientific :=
  ⟨i.value * 5 ^ 1076, -1076⟩

/-- The fewest digits that read back as `s * 2 ^ e` units, of those the nearest. -/
def shortest (tie : Tie) (s e : Nat) : Scientific :=
  let i := interval s e
  (search tie i (leadingExponent i.value) 17 1).getD (exactDigits i)

end DocQuery.Number.Binary64
