/-!
# Digits of natural numbers

Writing a natural number in base ten and reading a run of digits back. Long numbers are
split in the middle instead of digit by digit, so that a number of many thousand digits is
still written quickly.
-/

namespace DocQuery.Text.Digits

-- Powers of numbers are those of the core library, whatever else is imported.
attribute [instance (1100), default_instance (10001)] instPowNat

/-- The character of a digit below sixteen; letters are lower case. -/
def digitChar (d : Nat) : Char :=
  if d < 10 then Char.ofNat ('0'.toNat + d) else Char.ofNat ('a'.toNat + (d - 10))

/-- The number that an ASCII digit stands for. -/
def digitValue (c : Char) : Nat :=
  c.toNat - '0'.toNat

/-- The number that an ASCII hexadecimal digit stands for. -/
def hexValue? (c : Char) : Option Nat :=
  if '0' ≤ c ∧ c ≤ '9' then some (c.toNat - '0'.toNat)
  else if 'a' ≤ c ∧ c ≤ 'f' then some (c.toNat - 'a'.toNat + 10)
  else if 'A' ≤ c ∧ c ≤ 'F' then some (c.toNat - 'A'.toNat + 10)
  else none

/-- The lowest `2 ^ k` decimal digits of `n`, with leading zeros. -/
def block : Nat → Nat → List Char
  | 0, n => [digitChar (n % 10)]
  | k + 1, n => block k (n / 10 ^ 2 ^ k) ++ block k (n % 10 ^ 2 ^ k)

/-- A level at which `block` holds every digit of `n`. -/
def level (n : Nat) : Nat :=
  Nat.log2 (Nat.log2 n + 1) + 1

/-- The decimal digits of `n`, without leading zeros. -/
def ofNat (n : Nat) : List Char :=
  if n < 10 then [digitChar n]
  else (block (level n) n).dropWhile (· == '0')

/-- The decimal digits of an integer, after a minus sign when it is negative. -/
def ofInt (n : Int) : List Char :=
  if n < 0 then '-' :: ofNat n.natAbs else ofNat n.natAbs

/-- The lowest `width` digits of `n` in base `base`, with leading zeros. -/
def fixed (base : Nat) : Nat → Nat → List Char
  | 0, _ => []
  | width + 1, n => fixed base width (n / base) ++ [digitChar (n % base)]

/-- The digits of `n`, filled up with zeros on the left to at least `width` of them. -/
def padded (width n : Nat) : List Char :=
  let digits := ofNat n
  List.replicate (width - digits.length) '0' ++ digits

/-- The number that a run of decimal digits denotes. -/
def value (digits : List Char) : Nat :=
  digits.foldl (fun n c => n * 10 + digitValue c) 0

/-- The number that a run of hexadecimal digits denotes; none for any other text. -/
def hexNumber? (digits : List Char) : Option Nat :=
  digits.foldlM (fun n c => (hexValue? c).map (n * 16 + ·)) 0

/-- How many decimal digits `n` has; zero has none. -/
def count (n : Nat) : Nat :=
  if n = 0 then 0 else (ofNat n).length

end DocQuery.Text.Digits
