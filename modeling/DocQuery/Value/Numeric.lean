import DocQuery.Number.Decimal.Binary64
import DocQuery.Value.Basic

/-!
# Numbers among values

Two numbers are brought to a common form before they are compared or computed with: ints
stay ints, an int and a float become floats, and anything with a decimal becomes decimals. A
number outside the range of decimals turns such a pair into floats.
-/

namespace DocQuery

open Number

/-- A number of one of the three numeric kinds. -/
inductive Numeric
  | int (n : Int)
  | float (x : Binary64)
  | decimal (d : Decimal)
  deriving DecidableEq, Repr

/-- Two numbers in a common form. -/
inductive NumericPair
  | int (a b : Int)
  | float (a b : Binary64)
  | decimal (a b : Decimal)
  deriving DecidableEq, Repr

namespace Numeric

def kind : Numeric → Kind
  | int _ => .int
  | float _ => .float
  | decimal _ => .decimal

/-- The number as a decimal, where there is one. -/
def toDecimal? : Numeric → Option Decimal
  | int n => Decimal.ofInt? n
  | float x => Decimal.ofBinary64? x
  | decimal d => some d

/-- The number as a float; a large int is infinite. -/
def toFloat : Numeric → Binary64
  | int n => .ofInt n
  | float x => x
  | decimal d => d.toBinary64

/-- The kind of the common form of two kinds of numbers. -/
def commonKind : Kind → Kind → Kind
  | .int, .int => .int
  | .decimal, _ => .decimal
  | _, .decimal => .decimal
  | _, _ => .float

/-- Two numbers in their common form. -/
def coerce : Numeric → Numeric → NumericPair
  | int a, int b => .int a b
  | a, b =>
    match commonKind a.kind b.kind with
    | .decimal =>
      match a.toDecimal?, b.toDecimal? with
      | some x, some y => .decimal x y
      | _, _ => .float a.toFloat b.toFloat
    | _ => .float a.toFloat b.toFloat

end Numeric

namespace Value

/-- The number that a value holds, unless it is missing. -/
def numeric? : Value → Option Numeric
  | scalar _ (.int n) => some (.int n)
  | scalar _ (.float x) => some (.float x)
  | scalar _ (.decimal d) => some (.decimal d)
  | _ => none

end Value

end DocQuery
