import DocQuery.Number.Decimal

/-!
# Decimal arithmetic

Sums, products and remainders are exact results shrunk into range. A quotient is developed
by groups of at most nine digits while the coefficient has room for them. Every operation
is `none` when the result is too large, and a quotient also for a zero divisor.
-/

namespace DocQuery.Number.Decimal

/-- The exact sum of two nonzero decimals, shrunk; a zero sum is positive. -/
def addExact (a b : Decimal) : Option Decimal :=
  let scale := max a.scale b.scale
  let sum := a.atScale scale + b.atScale scale
  shrink? (sum < 0) sum.natAbs scale

/-- A zero operand leaves the other as it is written. -/
def add? (a b : Decimal) : Option Decimal :=
  if a.isZero then some b
  else if b.isZero then some a
  else addExact a b

def sub? (a b : Decimal) : Option Decimal :=
  if a.isZero then some (if b.isZero then b else b.neg)
  else if b.isZero then some a
  else addExact a b.neg

/-- Products of one-word coefficients that lie more than nineteen places below the last one
vanish; a product that rounds to zero keeps its sign unless both coefficients are one word. -/
def mul? (a b : Decimal) : Option Decimal :=
  if a.isZero || b.isZero then some zero
  else
    let negative := a.negative != b.negative
    let words := a.coefficient < 2 ^ 32 && b.coefficient < 2 ^ 32
    if words && maxScale + 19 < a.scale + b.scale then some zero
    else (shrink? negative (a.coefficient * b.coefficient) (a.scale + b.scale)).map fun d =>
      if words && d.isZero then d.abs else d

/-- The state of a long division: the quotient so far, the remainder, the scale of the
quotient, and whether a remainder was ever met. -/
structure Quotient where
  quotient : Nat
  remainder : Nat
  scale : Int
  inexact : Bool

/-- The largest `p` up to the given one for which `q * 10 ^ p` stays in range. -/
def room (q : Nat) : Nat → Nat
  | 0 => 0
  | p + 1 => if q * 10 ^ (p + 1) < bound then p + 1 else room q p

/-- A quotient that has no room for further digits is rounded half to even on its remainder. -/
def Quotient.finish (divisor : Nat) (state : Quotient) : Option Quotient :=
  if state.scale < 0 then none
  else if Tie.even.goesUp state.quotient state.remainder divisor then
    if state.quotient + 1 < bound then some { state with quotient := state.quotient + 1 }
    else if state.scale = 0 then none
    else some { state with quotient := roundDiv .up bound 10, scale := state.scale - 1 }
  else some state

/-- A quotient one digit too long loses its last digit, rounded half to even; a remainder
counts as more than half. -/
def Quotient.dropDigit (state : Quotient) : Option Quotient :=
  if state.scale < 1 then none
  else
    let q := state.quotient / 10
    let last := state.quotient % 10
    let up := 5 < last || (last == 5 && (state.remainder != 0 || q % 2 == 1))
    some { state with quotient := if up then q + 1 else q, scale := state.scale - 1 }

/-- Appends `p` digits to the quotient. -/
def Quotient.extend (divisor p : Nat) (state : Quotient) : Quotient :=
  let r := state.remainder * 10 ^ p
  { state with
    quotient := state.quotient * 10 ^ p + r / divisor
    remainder := r % divisor
    scale := state.scale + p }

/-- Develops the quotient until it is exact or has no room; each round adds at least one
place to a scale between `-28` and `28`, so `fuel` of sixty suffices. -/
def Quotient.develop (divisor : Nat) : Nat → Quotient → Option Quotient
  | 0, _ => none
  | fuel + 1, state =>
    if state.remainder = 0 then
      -- Nothing remains: zeros are appended only where the scale is still negative.
      if 0 ≤ state.scale then some state
      else
        let p := min 9 (-state.scale).toNat
        if bound ≤ state.quotient * 10 ^ p then none
        else develop divisor fuel (state.extend divisor p)
    else
      let state := { state with inexact := true }
      let p := room state.quotient (min 9 ((maxScale : Int) - state.scale).toNat)
      if p = 0 then state.finish divisor
      else
        -- The digits of this round may carry the coefficient over the bound by one place.
        let next := state.extend divisor p
        if bound ≤ next.quotient then next.dropDigit else develop divisor fuel next

/-- Drops eight zeros at a time while the quotient is a multiple of `2 ^ 32`. -/
def dropEights : Nat → Nat → Nat → Nat × Nat
  | 0, q, s => (q, s)
  | fuel + 1, q, s =>
    if q % 2 ^ 32 = 0 ∧ 8 ≤ s ∧ q % 10 ^ 8 = 0 then dropEights fuel (q / 10 ^ 8) (s - 8)
    else (q, s)

/-- Drops `zeros` zeros once, if there are as many. -/
def dropOnce (zeros : Nat) (parts : Nat × Nat) : Nat × Nat :=
  if parts.1 % 10 ^ zeros = 0 ∧ zeros ≤ parts.2 then
    (parts.1 / 10 ^ zeros, parts.2 - zeros)
  else parts

/-- An inexact quotient loses zeros in groups of eight, then once each of four, two and one,
so it may keep some. -/
def dropGroups (q s : Nat) : Nat × Nat :=
  dropOnce 1 (dropOnce 2 (dropOnce 4 (dropEights 4 q s)))

/-- The quotient by a divisor that is not zero. It keeps its sign where it rounds to zero. -/
def div? (a b : Decimal) : Option Decimal :=
  if b.isZero then none
  else if a.isZero then some zero
  else do
    let start : Quotient :=
      ⟨a.coefficient / b.coefficient, a.coefficient % b.coefficient, a.scale - b.scale, false⟩
    let found ← start.develop b.coefficient 60
    let (q, s) :=
      if found.inexact then dropGroups found.quotient found.scale.toNat
      else (found.quotient, found.scale.toNat)
    make? (a.negative != b.negative) q s

/-- The remainder of the quotient cut toward zero. A dividend of smaller magnitude is its own
remainder. -/
def rem? (a b : Decimal) : Option Decimal :=
  if b.isZero then none
  else if a.isZero then some zero
  else match a.abs.compareTo b.abs with
    | .eq => some zero
    | .lt => some a
    | .gt =>
      let scale := max a.scale b.scale
      let r := (a.atScale scale).natAbs % (b.atScale scale).natAbs
      make? (a.negative && r != 0) r scale

end DocQuery.Number.Decimal
