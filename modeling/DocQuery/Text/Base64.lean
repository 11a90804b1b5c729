import DocQuery.Text.Digits

/-!
# Base64

Bytes written in the standard alphabet, three to four symbols, with padding. Reading accepts
exactly what writing produces and says what is wrong with any other text.
-/

namespace DocQuery.Text.Base64

/-- The symbol of a six-bit number. -/
def symbol (n : Nat) : Char :=
  if n < 26 then Char.ofNat ('A'.toNat + n)
  else if n < 52 then Char.ofNat ('a'.toNat + (n - 26))
  else if n < 62 then Char.ofNat ('0'.toNat + (n - 52))
  else if n = 62 then '+'
  else '/'

/-- The six-bit number of a symbol. -/
def symbolValue? (c : Char) : Option Nat :=
  if 'A' ≤ c ∧ c ≤ 'Z' then some (c.toNat - 'A'.toNat)
  else if 'a' ≤ c ∧ c ≤ 'z' then some (c.toNat - 'a'.toNat + 26)
  else if '0' ≤ c ∧ c ≤ '9' then some (c.toNat - '0'.toNat + 52)
  else if c = '+' then some 62
  else if c = '/' then some 63
  else none

/-- Writes bytes in groups of three. -/
def encode : List UInt8 → List Char
  | [] => []
  | [a] =>
    let n := a.toNat * 16
    [symbol (n / 64), symbol (n % 64), '=', '=']
  | [a, b] =>
    let n := (a.toNat * 256 + b.toNat) * 4
    [symbol (n / 4096), symbol (n / 64 % 64), symbol (n % 64), '=']
  | a :: b :: c :: rest =>
    let n := (a.toNat * 256 + b.toNat) * 256 + c.toNat
    symbol (n / 262144) :: symbol (n / 4096 % 64) :: symbol (n / 64 % 64) :: symbol (n % 64) ::
      encode rest

/-- Why text cannot be read. -/
inductive BadBase64
  /-- A character that is no symbol, or padding where none can be. -/
  | symbol (c : Char) (offset : Nat)
  /-- The last group has a lone symbol. -/
  | length (count : Nat)
  /-- The last symbol has bits that belong to no byte. -/
  | lastSymbol (c : Char) (offset : Nat)
  /-- The padding is not complete. -/
  | padding
  deriving DecidableEq, Repr

/-- What is wrong, in words. -/
def BadBase64.message : BadBase64 → String
  | .symbol c offset => s!"Invalid symbol {c.toNat}, offset {offset}."
  | .length count => s!"Invalid input length: {count}"
  | .lastSymbol c offset => s!"Invalid last symbol {c.toNat}, offset {offset}."
  | .padding => "Invalid padding"

/-- The number of a symbol at an offset. -/
def valueAt (offset : Nat) (c : Char) : Except BadBase64 Nat :=
  match symbolValue? c with
  | some n => .ok n
  | none => .error (.symbol c offset)

/-- Where the symbols of the last group end: their numbers, and how much padding follows.
Padding stands after two symbols at least, and no symbol after padding. -/
def lastGroup (offset : Nat) (values : List Nat) (padding : Nat) :
    List Char → Except BadBase64 (List Nat × Nat)
  | [] => .ok (values, padding)
  | c :: rest =>
    if c = '=' then
      if values.length < 2 then .error (.symbol c (offset + values.length))
      else lastGroup offset values (padding + 1) rest
    else if 0 < padding then .error (.symbol '=' (offset + values.length))
    else do
      let n ← valueAt (offset + values.length) c
      lastGroup offset (values ++ [n]) padding rest

/-- The bytes of the last group, which starts at an offset. -/
def decodeLast (offset : Nat) (group : List Char) : Except BadBase64 (List UInt8) := do
  let (values, padding) ← lastGroup offset [] 0 group
  match values with
  | [] => if group.isEmpty then return [] else .error (.length offset)
  | [_] => .error (.length (offset + 1))
  | _ =>
    if (values.length + padding) % 4 ≠ 0 then .error .padding
    else match values with
      | [a, b] =>
        if b % 16 ≠ 0 then .error (.lastSymbol (symbol b) (offset + 1))
        else return [UInt8.ofNat (a * 4 + b / 16)]
      | [a, b, c] =>
        if c % 4 ≠ 0 then .error (.lastSymbol (symbol c) (offset + 2))
        else
          let n := a * 1024 + b * 16 + c / 4
          return [UInt8.ofNat (n / 256), UInt8.ofNat (n % 256)]
      | [a, b, c, d] =>
        let n := a * 262144 + b * 4096 + c * 64 + d
        return [UInt8.ofNat (n / 65536), UInt8.ofNat (n / 256 % 256), UInt8.ofNat (n % 256)]
      | _ => .error .padding

/-- Reads the text from an offset on: whole groups of four symbols, then the last one. -/
def decodeFrom (offset : Nat) : List Char → Except BadBase64 (List UInt8)
  | a :: b :: c :: d :: e :: rest => do
    let a ← valueAt offset a
    let b ← valueAt (offset + 1) b
    let c ← valueAt (offset + 2) c
    let d ← valueAt (offset + 3) d
    let n := a * 262144 + b * 4096 + c * 64 + d
    return UInt8.ofNat (n / 65536) :: UInt8.ofNat (n / 256 % 256) :: UInt8.ofNat (n % 256) ::
      (← decodeFrom (offset + 4) (e :: rest))
  | group => decodeLast offset group

/-- Reads bytes. -/
def decode (text : List Char) : Except BadBase64 (List UInt8) :=
  decodeFrom 0 text

end DocQuery.Text.Base64
