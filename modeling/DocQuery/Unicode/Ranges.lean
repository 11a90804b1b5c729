import DocQuery.Text.Digits

/-!
# Ranges of code points

A set of characters as a list of ranges. Tables are written as text: code points in
hexadecimal, a range as its two ends with a hyphen between them, and a slash after a range of
which only every second member belongs to the set.
-/

namespace DocQuery.Unicode

/-- The code points from `first` to `last`, or every second one of them. -/
structure Range where
  first : Nat
  last : Nat
  alternate : Bool
  deriving DecidableEq, Repr

/-- Whether a code point belongs to a range. -/
def Range.contains (r : Range) (n : Nat) : Bool :=
  r.first ≤ n && n ≤ r.last && !(r.alternate && (n - r.first) % 2 == 1)

namespace Ranges

/-- Reads the rest of a table; `first` is the start of an open range, `n` the number being
read, and `alternate` whether a slash was seen. -/
def read : List Char → Option Nat → Nat → Bool → List Range
  | [], first, n, alternate => [⟨first.getD n, n, alternate⟩]
  | ' ' :: cs, first, n, alternate => ⟨first.getD n, n, alternate⟩ :: read cs none 0 false
  | '-' :: cs, _, n, alternate => read cs (some n) 0 alternate
  | '/' :: cs, first, n, _ => read cs first n true
  | c :: cs, first, n, alternate =>
    read cs first (n * 16 + (Text.Digits.hexValue? c).getD 0) alternate

/-- The ranges that a table lists. -/
def ofText (table : String) : List Range :=
  read table.toList none 0 false

/-- Whether a character belongs to one of the ranges. -/
def contains (ranges : List Range) (c : Char) : Bool :=
  ranges.any (·.contains c.toNat)

end Ranges

end DocQuery.Unicode
