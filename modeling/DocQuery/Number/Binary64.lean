import DocQuery.Number.Rounding

/-!
# Double precision numbers

A finite number is a sign and a magnitude `s * 2 ^ e` counted in units of `2 ^ -1074`, the
least positive one. `Canonical` leaves one pair `(s, e)` for each magnitude, so two finite
numbers are the same number exactly when they are the same term, zeros of either sign aside.
Every operation computes its exact result and rounds it once, to nearest, ties to even.
-/

namespace DocQuery.Number

-- Powers of numbers are those of the core library, whatever else is imported.
attribute [instance (1100), default_instance (10001)] instPowNat

/-- The significand and exponent are the standard ones: 53 bits, an exponent in range, and
no leading zero bit unless the exponent is the least. -/
def Canonical (s e : Nat) : Prop :=
  s < 2 ^ 53 ∧ e ≤ 2045 ∧ (e = 0 ∨ 2 ^ 52 ≤ s)

instance (s e : Nat) : Decidable (Canonical s e) :=
  inferInstanceAs (Decidable (_ ∧ _ ∧ (_ ∨ _)))

/-- A double precision number. -/
inductive Binary64
  | nan
  | infinity (negative : Bool)
  | finite (negative : Bool) (significand exponent : Nat)
      (canonical : Canonical significand exponent)
  deriving DecidableEq, Repr

namespace Binary64

/-- How many least positive numbers make one. -/
def unitsPerOne : Nat := 2 ^ 1074

/-- Zero of the given sign. -/
def zero (negative : Bool) : Binary64 :=
  .finite negative 0 0 (by decide)

instance : Inhabited Binary64 := ⟨zero false⟩

/-- The number with this significand and exponent; out of range it is infinite. -/
def make (negative : Bool) (s e : Nat) : Binary64 :=
  if h : Canonical s e then .finite negative s e h else .infinity negative

/-- The number nearest to `n / d` units, of the given sign; ties go to the even significand. -/
def round (negative : Bool) (n d : Nat) : Binary64 :=
  let e := Nat.log2 (n / d) - 52
  let s := roundDiv .even n (d * 2 ^ e)
  if s < 2 ^ 53 then make negative s e else make negative (2 ^ 52) (e + 1)

/-- The number nearest to `n / d`, of the given sign. -/
def ofRatio (negative : Bool) (n d : Nat) : Binary64 :=
  round negative (n * unitsPerOne) d

/-- The number nearest to an integer; a large one is infinite. -/
def ofInt (n : Int) : Binary64 :=
  if n = 0 then zero false
  else if 1024 < Nat.log2 n.natAbs then .infinity (n < 0)
  else ofRatio (n < 0) n.natAbs 1

/-- The number nearest to `digits * 10 ^ exponent`, of the given sign. Exponents so large or
so small that the answer no longer depends on them are not expanded. -/
def ofScientific (negative : Bool) (digits : Nat) (exponent : Int) : Binary64 :=
  if digits = 0 then zero negative
  else if 400 < exponent then .infinity negative
  else if exponent + (Nat.log2 digits : Int) < -1200 then zero negative
  else if 0 ≤ exponent then ofRatio negative (digits * 10 ^ exponent.toNat) 1
  else ofRatio negative digits (10 ^ (-exponent).toNat)

/-- The magnitude in units; zero for the numbers that have none. -/
def units : Binary64 → Nat
  | .finite _ s e _ => s * 2 ^ e
  | _ => 0

/-- Whether the sign bit is set. -/
def isNegative : Binary64 → Bool
  | .finite negative .. => negative
  | .infinity negative => negative
  | .nan => false

/-- The value of a finite number in units, with its sign. -/
def signedUnits (x : Binary64) : Int :=
  if x.isNegative then -(x.units : Int) else x.units

def isNan : Binary64 → Bool
  | .nan => true
  | _ => false

def isFinite : Binary64 → Bool
  | .finite .. => true
  | _ => false

/-- Whether a number is a zero of either sign. -/
def isZero : Binary64 → Bool
  | .finite _ s _ _ => s == 0
  | _ => false

/-- The order of two numbers; none when one of them is not a number. -/
def compare? : Binary64 → Binary64 → Option Ordering
  | .nan, _ => none
  | _, .nan => none
  | .infinity a, .infinity b => some (if a == b then .eq else if a then .lt else .gt)
  | .infinity a, .finite .. => some (if a then .lt else .gt)
  | .finite .., .infinity b => some (if b then .gt else .lt)
  | x@(.finite ..), y@(.finite ..) => some (compare x.signedUnits y.signedUnits)

/-- Equality of numbers: zeros of either sign are equal, and nothing equals `nan`. -/
def equal (x y : Binary64) : Bool :=
  x.compare? y == some .eq

/-- The sixty-four bits of the interchange format; the quiet `nan` stands for all. -/
def toBits : Binary64 → UInt64
  | .nan => 0x7ff8000000000000
  | .infinity negative => if negative then 0xfff0000000000000 else 0x7ff0000000000000
  | .finite negative s e _ =>
    let magnitude := if s < 2 ^ 52 then s else (e + 1) * 2 ^ 52 + (s - 2 ^ 52)
    UInt64.ofNat (if negative then 2 ^ 63 + magnitude else magnitude)

/-- The number with the given bits of the interchange format. -/
def ofBits (bits : UInt64) : Binary64 :=
  let n := bits.toNat
  let negative := 2 ^ 63 ≤ n
  let field := n / 2 ^ 52 % 2 ^ 11
  let fraction := n % 2 ^ 52
  if field = 2047 then (if fraction = 0 then .infinity negative else .nan)
  else if field = 0 then make negative fraction 0
  else make negative (fraction + 2 ^ 52) (field - 1)

end Binary64

end DocQuery.Number
