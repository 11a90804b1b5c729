import DocQuery.Number.Binary64

/-!
# Arithmetic on double precision numbers

Sum, difference, product, quotient and remainder are exact results rounded once. The power
is the platform's.
-/

namespace DocQuery.Number.Binary64

/-- The number nearest to a signed count of units over `d`; an exact zero takes `zeroSign`. -/
def ofSignedUnits (zeroSign : Bool) (n : Int) (d : Nat) : Binary64 :=
  if n = 0 then zero zeroSign else round (n < 0) n.natAbs d

def neg : Binary64 → Binary64
  | .nan => .nan
  | .infinity a => .infinity !a
  | .finite a s e h => .finite (!a) s e h

/-- A sum that vanishes is positive unless both terms are negative. -/
def add : Binary64 → Binary64 → Binary64
  | .nan, _ => .nan
  | _, .nan => .nan
  | .infinity a, .infinity b => if a == b then .infinity a else .nan
  | .infinity a, .finite .. => .infinity a
  | .finite .., .infinity b => .infinity b
  | x@(.finite a ..), y@(.finite b ..) =>
    ofSignedUnits (a && b) (x.signedUnits + y.signedUnits) 1

def sub (x y : Binary64) : Binary64 :=
  add x (neg y)

/-- The sign of a product or quotient is that of its operands' signs multiplied. -/
def mul (x y : Binary64) : Binary64 :=
  let negative := x.isNegative != y.isNegative
  if x.isNan || y.isNan then .nan
  else if x.isFinite && y.isFinite then round negative (x.units * y.units) unitsPerOne
  else if x.isZero || y.isZero then .nan
  else .infinity negative

def div (x y : Binary64) : Binary64 :=
  let negative := x.isNegative != y.isNegative
  match x, y with
  | .nan, _ => .nan
  | _, .nan => .nan
  | .infinity _, .infinity _ => .nan
  | .infinity _, .finite .. => .infinity negative
  | .finite .., .infinity _ => zero negative
  | .finite .., .finite .. =>
    if y.isZero then (if x.isZero then .nan else .infinity negative)
    else ofRatio negative x.units y.units

/-- The remainder of the quotient cut toward zero; it has the sign of the dividend. -/
def rem (x y : Binary64) : Binary64 :=
  match x, y with
  | .nan, _ => .nan
  | _, .nan => .nan
  | .infinity _, _ => .nan
  | .finite .., .infinity _ => x
  | .finite .., .finite .. =>
    if y.isZero then .nan else round x.isNegative (x.units % y.units) 1

/-- The platform's power. -/
def pow (x y : Binary64) : Binary64 :=
  ofBits (Float.pow (Float.ofBits x.toBits) (Float.ofBits y.toBits)).toBits

end DocQuery.Number.Binary64
