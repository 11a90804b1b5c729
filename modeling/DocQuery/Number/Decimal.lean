import DocQuery.Number.Rounding
import DocQuery.Text.Digits

/-!
# Decimal numbers

A decimal is a sign, a coefficient of at most 96 bits and a scale of at most 28: the number
`± coefficient / 10 ^ scale`. The scale is part of how it is written, so `1.50` and `1.5` are
different terms with the same value. `shrink?` brings an exact result of any size back into
that form.
-/

namespace DocQuery.Number

/-- A decimal number with the scale at which it is written. -/
structure Decimal where
  negative : Bool
  coefficient : Nat
  scale : Nat
  coefficient_lt : coefficient < 2 ^ 96
  scale_le : scale ≤ 28
  deriving DecidableEq, Repr

namespace Decimal

/-- Coefficients stay below this bound. -/
abbrev bound : Nat := 2 ^ 96

/-- The largest scale. -/
abbrev maxScale : Nat := 28

/-- The decimal with these parts, if they are in range. -/
def make? (negative : Bool) (coefficient scale : Nat) : Option Decimal :=
  if h : coefficient < 2 ^ 96 ∧ scale ≤ 28 then
    some ⟨negative, coefficient, scale, h.1, h.2⟩
  else none

def zero : Decimal := ⟨false, 0, 0, by decide, by decide⟩

def one : Decimal := ⟨false, 1, 0, by decide, by decide⟩

instance : Inhabited Decimal := ⟨zero⟩

def isZero (d : Decimal) : Bool :=
  d.coefficient == 0

def neg (d : Decimal) : Decimal :=
  { d with negative := !d.negative }

/-- The same magnitude, positive. -/
def abs (d : Decimal) : Decimal :=
  { d with negative := false }

/-- The coefficient with its sign. -/
def signed (d : Decimal) : Int :=
  if d.negative then -(d.coefficient : Int) else d.coefficient

/-- The coefficient that the value has at a larger scale. -/
def atScale (d : Decimal) (scale : Nat) : Int :=
  d.signed * 10 ^ (scale - d.scale)

/-- The order of the values. -/
def compareTo (a b : Decimal) : Ordering :=
  let scale := max a.scale b.scale
  compare (a.atScale scale) (b.atScale scale)

/-- Equality of values, whatever their scales. -/
def equal (a b : Decimal) : Bool :=
  a.compareTo b == .eq

/-- Drops zeros at the end of the fraction; `fuel` bounds how many. -/
def strip : Nat → Nat → Nat → Nat × Nat
  | 0, m, s => (m, s)
  | fuel + 1, m, s =>
    if s ≠ 0 ∧ m % 10 = 0 then strip fuel (m / 10) (s - 1) else (m, s)

/-- The same value at the least scale; a zero has no sign. -/
def normalize (d : Decimal) : Decimal :=
  if d.isZero then zero
  else
    let (m, s) := strip maxScale d.coefficient d.scale
    (make? d.negative m s).getD d

/-- The least `k`, from `k` on, that brings `m / 10 ^ k` and the scale `s - k` into range. -/
def excess (m s : Nat) : Nat → Nat → Nat
  | 0, k => k
  | fuel + 1, k =>
    if maxScale < s - k ∨ bound ≤ m / 10 ^ k then excess m s fuel (k + 1) else k

/-- An exact result `m / 10 ^ s` in range, rounded half to even at the first scale that fits;
none when it is too large for scale zero. -/
def shrink? (negative : Bool) (m s : Nat) : Option Decimal :=
  let k := excess m s (m.log2 + s + 1) 0
  if s < k then none
  else
    let rounded := roundDiv .even m (10 ^ k)
    if rounded < bound then make? negative rounded (s - k)
    else if s < k + 1 then none
    else make? negative (roundDiv .even m (10 ^ (k + 1))) (s - (k + 1))

/-- A whole number as a decimal; none beyond 96 bits. -/
def ofInt? (n : Int) : Option Decimal :=
  make? (n < 0) n.natAbs 0

/-- The value cut toward zero. -/
def truncate (d : Decimal) : Int :=
  let n := (d.coefficient / 10 ^ d.scale : Nat)
  if d.negative then -(n : Int) else n

/-- The value cut toward zero, where it fits a signed 64-bit word. -/
def toInt64? (d : Decimal) : Option Int :=
  let n := d.truncate
  if -(2 ^ 63) ≤ n ∧ n < 2 ^ 63 then some n else none

/-- Whether the value is a whole number. -/
def isIntegral (d : Decimal) : Bool :=
  d.coefficient % 10 ^ d.scale == 0

/-- The digits with exactly `scale` of them after the point. -/
def write (d : Decimal) : List Char :=
  let digits := Text.Digits.padded (d.scale + 1) d.coefficient
  let whole := digits.take (digits.length - d.scale)
  let fraction := digits.drop (digits.length - d.scale)
  (if d.negative then ['-'] else []) ++ whole ++
    (if d.scale = 0 then [] else '.' :: fraction)

end Decimal

end DocQuery.Number
