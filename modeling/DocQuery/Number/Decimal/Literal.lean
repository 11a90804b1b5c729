import DocQuery.Number.Decimal.Arithmetic

/-!
# Reading decimal numbers

A decimal literal is a number with an exponent after a `d`. Its digits are read one by one
while they fit; the first digit of the fraction that does not fit rounds, half up. The
exponent then moves the point, or multiplies where the scale is used up.
-/

namespace DocQuery.Number.Decimal

open Text

/-- Why a decimal cannot be read. -/
inductive BadDecimal
  /-- The whole part needs more than 96 bits. -/
  | tooManyDigits
  /-- Rounding the fraction needs more than 96 bits. -/
  | rounding
  /-- The exponent is no 32-bit number. -/
  | exponent
  /-- The scale would be this large. -/
  | scale (found : Nat)
  /-- The value needs more than 96 bits. -/
  | tooLarge
  deriving DecidableEq, Repr

/-- What is wrong, in words. -/
def BadDecimal.message : BadDecimal → String
  | .tooManyDigits => "Invalid decimal: overflow from too many digits"
  | .rounding => "Invalid decimal: overflow from mantissa after rounding"
  | .exponent => "Failed to parse"
  | .scale found => s!"Scale exceeds the maximum precision allowed: {found} > 28"
  | .tooLarge => "Number exceeds maximum value that can be represented."

/-- Reads the digits of the whole part after those that made `m`. -/
def readWhole (m : Nat) : List Char → Except BadDecimal Nat
  | [] => .ok m
  | c :: rest =>
    let next := m * 10 + Digits.digitValue c
    if next < bound then readWhole next rest else .error .tooManyDigits

/-- Rounds coefficient and scale on a digit that does not fit. -/
def roundOff (m s d : Nat) : Except BadDecimal (Nat × Nat) :=
  if d < 5 then .ok (m, s)
  else if m + 1 < bound then .ok (m + 1, s)
  else if s = 0 then .error .rounding
  else .ok ((bound + 4) / 10, s - 1)

/-- Reads the digits of the fraction after those that made `m` at scale `s`. -/
def readFraction (m s : Nat) : List Char → Except BadDecimal (Nat × Nat)
  | [] => .ok (m, s)
  | c :: rest =>
    let next := m * 10 + Digits.digitValue c
    if s < maxScale ∧ next < bound then readFraction next (s + 1) rest
    else roundOff m s (Digits.digitValue c)

/-- Multiplies by `10 ^ n`, by at most `10 ^ 19` at a time; `fuel` bounds the number of
times. -/
def multiplyOut : Nat → Nat → Decimal → Option Decimal
  | 0, _, _ => none
  | fuel + 1, n, d =>
    if n = 0 then some d
    else
      let chunk := min n 19
      ((make? false (10 ^ chunk) 0).bind (mul? d)).bind (multiplyOut fuel (n - chunk))

/-- Applies an exponent to coefficient and scale. -/
def applyExponent (negative : Bool) (m s : Nat) (e : Int) : Except BadDecimal Decimal :=
  let place (scale : Nat) : Except BadDecimal Decimal :=
    match make? (negative && m != 0) m scale with
    | some d => .ok d
    | none => .error (.scale scale)
  if e < 0 then
    if maxScale < e.natAbs then .error (.scale e.natAbs) else place (s + e.natAbs)
  else if e.toNat ≤ s then place (s - e.toNat)
  else if maxScale < e.toNat then .error (.scale e.toNat)
  else
    match (make? (negative && m != 0) m s).bind (multiplyOut 3 e.toNat) with
    | some d => .ok d.normalize
    | none => .error .tooLarge

/-- Reads an exponent, a signed number of 32 bits. -/
def readExponent (text : List Char) : Except BadDecimal Int :=
  let (negative, digits) :=
    match text with
    | '-' :: rest => (true, rest)
    | '+' :: rest => (false, rest)
    | rest => (false, rest)
  let n := Digits.value digits
  if 2 ^ 32 ≤ n then .error .exponent else .ok (if negative then -(n : Int) else n)

/-- Reads a decimal literal: a sign, digits with a point, a `d` and an exponent. -/
def read (text : List Char) : Except BadDecimal Decimal := do
  let isMark (c : Char) := c == 'd' || c == 'D'
  let number := text.takeWhile (!isMark ·)
  let exponent := (text.dropWhile (!isMark ·)).drop 1
  let (negative, digits) :=
    match number with
    | '-' :: rest => (true, rest)
    | rest => (false, rest)
  let m ← readWhole 0 (digits.takeWhile (· != '.'))
  let (m, s) ← readFraction m 0 ((digits.dropWhile (· != '.')).drop 1)
  applyExponent negative m s (← readExponent exponent)

end DocQuery.Number.Decimal
