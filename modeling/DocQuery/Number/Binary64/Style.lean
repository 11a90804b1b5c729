import DocQuery.Number.Binary64.Shortest

/-!
# Written forms of double precision numbers

`Style` gathers the decisions of one written form: where positional digits end, how an
exponent is spelt, which of two equally near digit strings is taken, and the words for what
is not finite. `Style.write` writes a number in such a form.
-/

namespace DocQuery.Number.Binary64

open DocQuery.Text

/-- The decisions of one written form. -/
structure Style where
  /-- Positional digits are used while the leading digit's exponent lies from here … -/
  positionalFrom : Option Int
  /-- … to here. -/
  positionalTo : Option Int
  /-- A positional whole number ends in `.0`. -/
  pointZero : Bool
  /-- A positive exponent carries a plus sign. -/
  signedExponent : Bool
  tie : Tie
  nan : String
  positiveInfinity : String
  negativeInfinity : String

/-- Values in text and values shown for inspection differ only in their words. -/
def Style.value : Style :=
  ⟨some (-4), some 15, true, false, .up, "nan", "+inf", "-inf"⟩

/-- Numbers shown for inspection. -/
def Style.inspected : Style :=
  ⟨some (-4), some 15, true, false, .up, "NaN", "inf", "-inf"⟩

/-- Numbers inside a message: always positional, and whole numbers without a point. -/
def Style.message : Style :=
  ⟨none, none, false, false, .up, "NaN", "inf", "-inf"⟩

/-- Numbers in JSON; those that are not finite have no form there. -/
def Style.json : Style :=
  ⟨some (-5), some 15, true, true, .even, "null", "null", "null"⟩

/-- Digits without trailing zeros, and how many zeros were dropped; `fuel` bounds them. -/
def dropZeros : Nat → Nat → Nat → Nat × Nat
  | 0, n, k => (n, k)
  | fuel + 1, n, k => if n % 10 = 0 ∧ n ≠ 0 then dropZeros fuel (n / 10) (k + 1) else (n, k)

/-- Positional digits of `digits`, whose last one stands for `10 ^ exponent`. -/
def positional (pointZero : Bool) (digits : List Char) (exponent : Int) : List Char :=
  if 0 ≤ exponent then
    digits ++ List.replicate exponent.toNat '0' ++ (if pointZero then ['.', '0'] else [])
  else
    let places := (-exponent).toNat
    if places < digits.length then
      digits.take (digits.length - places) ++ '.' :: digits.drop (digits.length - places)
    else
      '0' :: '.' :: (List.replicate (places - digits.length) '0' ++ digits)

/-- One digit before the point, and the power of ten of that digit. -/
def scientific (signed : Bool) (digits : List Char) (leading : Int) : List Char :=
  let mantissa :=
    match digits with
    | [] => []
    | [d] => [d]
    | d :: rest => d :: '.' :: rest
  mantissa ++ 'e' :: ((if signed && 0 ≤ leading then ['+'] else []) ++ Digits.ofInt leading)

/-- A positive finite number, from the fewest digits that read back. -/
def Style.writeDigits (style : Style) (shown : Scientific) : List Char :=
  let (n, zeros) := dropZeros (Digits.count shown.digits) shown.digits 0
  let exponent := shown.exponent + zeros
  let digits := Digits.ofNat n
  let leading := exponent + digits.length - 1
  if style.positionalFrom.all (· ≤ leading) && style.positionalTo.all (leading ≤ ·) then
    positional style.pointZero digits exponent
  else
    scientific style.signedExponent digits leading

/-- A number in the given form. -/
def Style.write (style : Style) : Binary64 → List Char
  | .nan => style.nan.toList
  | .infinity negative => (if negative then style.negativeInfinity else style.positiveInfinity).toList
  | .finite negative s e _ =>
    (if negative then ['-'] else []) ++
      (if s = 0 then positional style.pointZero ['0'] 0
       else style.writeDigits (shortest style.tie s e))

end DocQuery.Number.Binary64
