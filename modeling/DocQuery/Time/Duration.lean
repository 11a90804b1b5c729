import DocQuery.Text.Digits

/-!
# Durations

A duration is a whole number of nanoseconds of either sign, at most `2 ^ 63 - 1`
milliseconds long. Its text names weeks, days, hours, minutes and seconds after a `P`, those
below a day after a `T`; written durations use days as their largest unit and omit what is
zero.
-/

namespace DocQuery.Time

open DocQuery.Text

/-- The longest duration, in nanoseconds. -/
def longest : Int := 9223372036854775807000000

/-- A signed length of time. -/
structure Duration where
  nanoseconds : Int
  inRange : -longest ≤ nanoseconds ∧ nanoseconds ≤ longest
  deriving DecidableEq, Repr

namespace Duration

/-- The duration of this many nanoseconds, if there is one. -/
def ofNanoseconds? (n : Int) : Option Duration :=
  if h : -longest ≤ n ∧ n ≤ longest then some ⟨n, h⟩ else none

def zero : Duration := ⟨0, by decide⟩

instance : Inhabited Duration := ⟨zero⟩

def neg (d : Duration) : Duration :=
  ⟨-d.nanoseconds, by have := d.inRange; omega⟩

def add? (a b : Duration) : Option Duration :=
  ofNanoseconds? (a.nanoseconds + b.nanoseconds)

def sub? (a b : Duration) : Option Duration :=
  ofNanoseconds? (a.nanoseconds - b.nanoseconds)

/-- Nanoseconds in a second. -/
abbrev second : Nat := 1000000000

/-- Nanoseconds in a minute. -/
abbrev minute : Nat := 60 * second

/-- Nanoseconds in an hour. -/
abbrev hour : Nat := 60 * minute

/-- Nanoseconds in a day. -/
abbrev day : Nat := 24 * hour

/-- Nanoseconds in a week. -/
abbrev week : Nat := 7 * day

/-- Why a duration cannot be read. -/
inductive BadDuration
  /-- The text does not begin with its letter. -/
  | missingMark
  /-- A number with its unit is no duration. -/
  | component (amount : List Char) (unit : Char)
  /-- The sum of the components is too long. -/
  | outOfRange
  /-- A number without a unit stands at the end. -/
  | trailing (amount : List Char)
  deriving DecidableEq, Repr

/-- What is wrong, in words. -/
def BadDuration.message : BadDuration → String
  | .missingMark => "missing 'P' designator"
  | .component amount unit => "bad component '" ++ String.ofList (amount ++ [unit]) ++ "'"
  | .outOfRange => "duration out of range"
  | .trailing amount => "trailing number '" ++ String.ofList amount ++ "'"

/-- The number that a nonempty run of digits denotes. -/
def number? (digits : List Char) : Option Nat :=
  if digits.isEmpty || !digits.all Char.isDigit then none else some (Digits.value digits)

/-- Seconds and nanoseconds of a number with a fraction, of which nine digits count. The whole
seconds fit a 32-bit word. -/
def splitSeconds? (text : List Char) : Option (Nat × Nat) := do
  let whole := text.takeWhile (· != '.')
  let fraction := (text.dropWhile (· != '.')).drop 1
  let seconds ← number? whole
  let digits := fraction.take 9
  let nanoseconds ← number? (digits ++ List.replicate (9 - digits.length) '0')
  if seconds < 2 ^ 32 then some (seconds, nanoseconds) else none

/-- The duration of a number with its unit; `clock` says whether the `T` has been seen. -/
def component? (amount : List Char) (unit : Char) (clock : Bool) : Option Duration :=
  match unit, clock with
  | 'S', true => do
    let (seconds, nanoseconds) ← splitSeconds? amount
    ofNanoseconds? (seconds * second + nanoseconds : Nat)
  | 'W', false => do ofNanoseconds? ((← number? amount) * week : Nat)
  | 'D', false => do ofNanoseconds? ((← number? amount) * day : Nat)
  | 'H', true => do ofNanoseconds? ((← number? amount) * hour : Nat)
  | 'M', true => do ofNanoseconds? ((← number? amount) * minute : Nat)
  | _, _ => none

/-- Adds up the components of a text: `amount` is the number being read, `clock` whether the
`T` has been seen. -/
def sum (amount : List Char) (clock : Bool) (total : Duration) :
    List Char → Except BadDuration Duration
  | [] => if amount.isEmpty then .ok total else .error (.trailing amount)
  | c :: rest =>
    if c.isDigit || c == '.' then sum (amount ++ [c]) clock total rest
    else if c = 'T' then sum amount true total rest
    else match component? amount c clock with
      | none => .error (.component amount c)
      | some part =>
        match total.add? part with
        | none => .error .outOfRange
        | some total => sum [] clock total rest

/-- Reads a duration without its sign. -/
def readUnsigned : List Char → Except BadDuration Duration
  | 'P' :: rest => sum [] false zero rest
  | _ => .error .missingMark

/-- Reads a duration. -/
def read : List Char → Except BadDuration Duration
  | '-' :: rest => (readUnsigned rest).map neg
  | text => readUnsigned text

/-- A count with its unit, omitted when zero. -/
def writeUnit (count : Nat) (unit : Char) : List Char :=
  if count = 0 then [] else Digits.ofNat count ++ [unit]

/-- Seconds with as many digits of their fraction as are not zero at the end. -/
def writeSeconds (seconds nanoseconds : Nat) : List Char :=
  if nanoseconds = 0 then writeUnit seconds 'S'
  else
    let fraction := (Digits.fixed 10 9 nanoseconds).reverse.dropWhile (· == '0')
    Digits.ofNat seconds ++ '.' :: (fraction.reverse ++ ['S'])

/-- The part of a duration below a day. -/
def writeClock (n : Nat) : List Char :=
  if n = 0 then []
  else
    'T' :: (writeUnit (n / hour) 'H' ++ writeUnit (n / minute % 60) 'M' ++
      writeSeconds (n / second % 60) (n % second))

/-- The text of a duration. -/
def write (d : Duration) : List Char :=
  let n := d.nanoseconds.natAbs
  if n = 0 then "PT0S".toList
  else
    (if d.nanoseconds < 0 then ['-'] else []) ++
      'P' :: (writeUnit (n / day) 'D' ++ writeClock (n % day))

end Duration

end DocQuery.Time
