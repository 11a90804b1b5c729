import DocQuery.Number.Binary64.Style
import DocQuery.Value.Numeric

/-!
# The order of values

Numbers are ordered in their common form, texts by code points, timestamps as instants.
Values of other kinds, missing values and floats that are not ordered cannot be compared.
-/

namespace DocQuery

open Number

/-- Why two values cannot be compared. -/
inductive Incomparable
  /-- One of two floats is not a number. -/
  | unordered (left right : Binary64)
  /-- The values have no common order. -/
  | unrelated (left right : Value)

/-- What is wrong, in words. -/
def Incomparable.message : Incomparable → String
  | unordered left right =>
    String.ofList (Binary64.Style.message.write left) ++ " and " ++
      String.ofList (Binary64.Style.message.write right) ++ " are not ordered"
  | unrelated left right => "cannot compare " ++ left.describe ++ " with " ++ right.describe

namespace Value

/-- The order of two numbers. -/
def compareNumbers (a b : Numeric) : Except Incomparable Ordering :=
  match a.coerce b with
  | .int x y => .ok (compare x y)
  | .decimal x y => .ok (x.compareTo y)
  | .float x y =>
    match x.compare? y with
    | some order => .ok order
    | none => .error (.unordered x y)

/-- The order of two values. -/
def compareTo (a b : Value) : Except Incomparable Ordering :=
  match a.numeric?, b.numeric? with
  | some x, some y => compareNumbers x y
  | _, _ =>
    match a, b with
    | scalar _ (.text _ x), scalar _ (.text _ y) => .ok (compare x y)
    | scalar _ (.bool x), scalar _ (.bool y) => .ok (compare x y)
    | scalar _ (.timestamp x), scalar _ (.timestamp y) => .ok (compare x.instant y.instant)
    | scalar _ (.duration x), scalar _ (.duration y) =>
      .ok (compare x.nanoseconds y.nanoseconds)
    | _, _ => .error (.unrelated a b)

end Value

end DocQuery
