import DocQuery.Number.Binary64
import DocQuery.Text.Digits

/-!
# Reading double precision numbers

A literal is a sign, digits with a point, and an exponent after an `e`; its value is rounded
once.
-/

namespace DocQuery.Number.Binary64

open Text

/-- Reads the exponent of a literal. -/
def readExponent : List Char → Int
  | '-' :: digits => -(Digits.value digits : Int)
  | '+' :: digits => Digits.value digits
  | digits => Digits.value digits

/-- The number of a literal. -/
def read (text : List Char) : Binary64 :=
  let isMark (c : Char) := c == 'e' || c == 'E'
  let (negative, unsigned) :=
    match text with
    | '-' :: rest => (true, rest)
    | rest => (false, rest)
  let number := unsigned.takeWhile (!isMark ·)
  let exponent := readExponent ((unsigned.dropWhile (!isMark ·)).drop 1)
  let whole := number.takeWhile (· != '.')
  let fraction := (number.dropWhile (· != '.')).drop 1
  ofScientific negative (Digits.value (whole ++ fraction)) (exponent - fraction.length)

end DocQuery.Number.Binary64
