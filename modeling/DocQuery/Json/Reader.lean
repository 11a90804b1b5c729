import DocQuery.Json.Basic
import DocQuery.Number.Binary64.Arithmetic
import DocQuery.Text.Digits

/-!
# Reading JSON

Strict JSON: no trailing commas, no lone surrogates, containers at most 127 deep. A number
keeps its first digits as far as they fit 64 bits and is then scaled by a power of ten in
double precision.
-/

namespace DocQuery.Json

open Text Number

/-- A reader takes what it reads from the front of a text and leaves the rest. -/
abbrev Reader (α : Type) := List Char → Option (α × List Char)

/-- Passes over blanks. -/
def skipBlanks (text : List Char) : List Char :=
  text.dropWhile fun c => c == ' ' || c == '\n' || c == '\t' || c == '\r'

/-- Sixty-four bits hold less than this. -/
abbrev wordBound : Nat := 2 ^ 64

/-- Reads digits after those that made `n` as long as they fit 64 bits, counting them. -/
def readWord (n count : Nat) : List Char → Nat × Nat × List Char
  | [] => (n, count, [])
  | c :: rest =>
    if c.isDigit && n * 10 + Digits.digitValue c < wordBound then
      readWord (n * 10 + Digits.digitValue c) (count + 1) rest
    else (n, count, c :: rest)

/-- A power of ten in double precision. -/
def powerOfTen (n : Nat) : Binary64 :=
  Binary64.ofScientific false 1 n

/-- Scales a number by `10 ^ exponent` in double precision; none out of range. Exponents below
`-308` are worked off in steps, of which no number needs more than `fuel`. -/
def scale : Nat → Binary64 → Int → Option Binary64
  | 0, _, _ => some (.zero false)
  | fuel + 1, x, exponent =>
    if exponent.natAbs ≤ 308 then
      if 0 ≤ exponent then
        let y := x.mul (powerOfTen exponent.toNat)
        if y.isFinite then some y else none
      else some (x.div (powerOfTen exponent.natAbs))
    else if x.isZero then some x
    else if 0 ≤ exponent then none
    else scale fuel (x.div (powerOfTen 308)) (exponent + 308)

/-- The float with a sign, a 64-bit significand and a decimal exponent. -/
def ofParts (negative : Bool) (significand : Nat) (exponent : Int) : Option Json := do
  let x ← scale 8 (.ofInt significand) exponent
  return .float (if negative then x.neg else x)

/-- Reads an exponent after its letter, and makes the float. An exponent beyond 32 bits stands
for one without bound. -/
def readExponent (negative : Bool) (significand : Nat) (before : Int) : Reader Json := fun text =>
  let (down, digits) :=
    match text with
    | '+' :: rest => (false, rest)
    | '-' :: rest => (true, rest)
    | rest => (false, rest)
  let run := digits.takeWhile Char.isDigit
  let rest := digits.dropWhile Char.isDigit
  if run.isEmpty then none
  else
    let n := Digits.value run
    if 2 ^ 31 ≤ n then
      if significand = 0 ∨ down then some (.float (.zero negative), rest) else none
    else do
      let j ← ofParts negative significand (if down then before - n else before + n)
      return (j, rest)

/-- Reads what may follow the digits of a float. -/
def finishFloat (negative : Bool) (significand : Nat) (exponent : Int) : Reader Json
  | 'e' :: rest => readExponent negative significand exponent rest
  | 'E' :: rest => readExponent negative significand exponent rest
  | rest => do return (← ofParts negative significand exponent, rest)

/-- Reads a fraction after its point. Digits that do not fit are passed over. -/
def readFraction (negative : Bool) (significand : Nat) (exponent : Int) : Reader Json := fun text =>
  match text with
  | c :: _ =>
    if c.isDigit then
      let (n, count, rest) := readWord significand 0 text
      finishFloat negative n (exponent - count) (rest.dropWhile Char.isDigit)
    else none
  | [] => none

/-- Reads what may follow the whole part of a number whose digits all fit. -/
def finishNumber (negative : Bool) (n : Nat) : Reader Json
  | '.' :: rest => readFraction negative n 0 rest
  | 'e' :: rest => readExponent negative n 0 rest
  | 'E' :: rest => readExponent negative n 0 rest
  | rest =>
    if !negative then some (.int n, rest)
    else if n = 0 ∨ 2 ^ 63 < n then some (.float (Binary64.ofInt n).neg, rest)
    else some (.int (-n), rest)

/-- Reads a number without its sign. -/
def readUnsigned (negative : Bool) : Reader Json
  | '0' :: rest =>
    match rest with
    | c :: _ => if c.isDigit then none else finishNumber negative 0 rest
    | [] => finishNumber negative 0 rest
  | text =>
    match text with
    | c :: _ =>
      if c.isDigit then
        let (n, _, rest) := readWord 0 0 text
        let dropped := rest.takeWhile Char.isDigit
        let rest := rest.dropWhile Char.isDigit
        if dropped.isEmpty then finishNumber negative n rest
        else
          match rest with
          | '.' :: rest => readFraction negative n dropped.length rest
          | rest => finishFloat negative n dropped.length rest
      else none
    | [] => none

/-- Reads a number. -/
def readNumber : Reader Json
  | '-' :: rest => readUnsigned true rest
  | text => readUnsigned false text

/-- Four hexadecimal digits. -/
def readHex : Reader Nat
  | a :: b :: c :: d :: rest => do return (← Digits.hexNumber? [a, b, c, d], rest)
  | _ => none

/-- The character of a one-letter escape. -/
def simpleEscape? : Char → Option Char
  | '"' => some '"'
  | '\\' => some '\\'
  | '/' => some '/'
  | 'b' => some '\x08'
  | 'f' => some '\x0c'
  | 'n' => some '\n'
  | 'r' => some '\r'
  | 't' => some '\t'
  | _ => none

/-- The character of two halves of a surrogate pair. -/
def ofSurrogates (high low : Nat) : Char :=
  Char.ofNat (0x10000 + (high - 0xd800) * 0x400 + (low - 0xdc00))

/-- Reads a string after its first quote. -/
def readString : List Char → Option (List Char × List Char)
  | [] => none
  | '"' :: rest => some ([], rest)
  | '\\' :: 'u' :: a :: b :: c :: d :: rest => do
    let high ← Digits.hexNumber? [a, b, c, d]
    if 0xd800 ≤ high ∧ high < 0xdc00 then
      match rest with
      | '\\' :: 'u' :: a :: b :: c :: d :: rest => do
        let low ← Digits.hexNumber? [a, b, c, d]
        if 0xdc00 ≤ low ∧ low < 0xe000 then
          let (chars, rest) ← readString rest
          return (ofSurrogates high low :: chars, rest)
        else none
      | _ => none
    else if 0xdc00 ≤ high ∧ high < 0xe000 then none
    else do
      let (chars, rest) ← readString rest
      return (Char.ofNat high :: chars, rest)
  | '\\' :: letter :: rest => do
    let c ← simpleEscape? letter
    let (chars, rest) ← readString rest
    return (c :: chars, rest)
  | c :: rest =>
    if c < ' ' ∨ c = '\\' then none
    else do
      let (chars, rest) ← readString rest
      return (c :: chars, rest)

/-- Reads the elements of a container after the first one or a comma, up to the closing
bracket. Each takes a character at least, so the length of the text bounds their number. -/
def readElements {α : Type} (element : Reader α) (closing : Char) :
    Nat → List Char → Option (List α × List Char)
  | 0, _ => none
  | fuel + 1, text => do
    let (first, rest) ← element text
    match skipBlanks rest with
    | c :: rest =>
      if c = ',' then do
        let (others, rest) ← readElements element closing fuel rest
        return (first :: others, rest)
      else if c = closing then return ([first], rest)
      else none
    | [] => none

/-- Reads a container after its opening bracket. -/
def readContainer {α : Type} (element : Reader α) (closing : Char) : Reader (List α) := fun text =>
  match skipBlanks text with
  | c :: rest =>
    if c = closing then some ([], rest) else readElements element closing (text.length + 1) text
  | [] => none

/-- Reads a member of an object; `value` reads what stands after the colon. -/
def readMember (value : Reader Json) : Reader (String × Json) := fun text =>
  match skipBlanks text with
  | '"' :: rest => do
    let (name, rest) ← readString rest
    match skipBlanks rest with
    | ':' :: rest => do
      let (j, rest) ← value rest
      return ((String.ofList name, j), rest)
    | _ => none
  | _ => none

/-- Reads a value that is no container. -/
def readScalar : Reader Json
  | 'n' :: 'u' :: 'l' :: 'l' :: rest => some (.null, rest)
  | 't' :: 'r' :: 'u' :: 'e' :: rest => some (.bool true, rest)
  | 'f' :: 'a' :: 'l' :: 's' :: 'e' :: rest => some (.bool false, rest)
  | '"' :: rest => do
    let (content, rest) ← readString rest
    return (.string (String.ofList content), rest)
  | text => readNumber text

/-- Reads a value in which containers are at most so deep. -/
def readValue : Nat → Reader Json
  | 0 => fun text => readScalar (skipBlanks text)
  | depth + 1 => fun text =>
    match skipBlanks text with
    | '[' :: rest => do
      let (items, rest) ← readContainer (readValue depth) ']' rest
      return (.array items, rest)
    | '\x7b' :: rest => do
      let (members, rest) ← readContainer (readMember (readValue depth)) '\x7d' rest
      return (.object (sortMembers members), rest)
    | text => readScalar text

/-- Reads a text that holds one value. -/
def read (text : String) : Option Json := do
  let (j, rest) ← readValue 127 text.toList
  if (skipBlanks rest).isEmpty then some j else none

end DocQuery.Json
