import DocQuery.Value.Basic

/-!
# Equality of values

Two values are equal when they have the same shape, the same names and annotations in the
same order, and equal scalars: floats as numbers, decimals whatever their scales, timestamps
as instants.
-/

namespace DocQuery

/-- Equality of scalars. -/
def Scalar.equal : Scalar → Scalar → Bool
  | .float x, .float y => x.equal y
  | .decimal x, .decimal y => x.equal y
  | .timestamp x, .timestamp y => x.instant == y.instant
  | x, y => x == y

namespace Value

mutual

/-- Equality of values. -/
def equal : Value → Value → Bool
  | scalar a x, scalar b y => a == b && x.equal y
  | sequence a f xs, sequence b g ys => a == b && f == g && equalItems xs ys
  | struct a xs, struct b ys => a == b && equalFields xs ys
  | _, _ => false

/-- Equality of items, one by one. -/
def equalItems : List Value → List Value → Bool
  | [], [] => true
  | x :: xs, y :: ys => x.equal y && equalItems xs ys
  | _, _ => false

/-- Equality of fields, one by one. -/
def equalFields : List (String × Value) → List (String × Value) → Bool
  | [], [] => true
  | (n, x) :: xs, (m, y) :: ys => n == m && x.equal y && equalFields xs ys
  | _, _ => false

end

end Value

end DocQuery
