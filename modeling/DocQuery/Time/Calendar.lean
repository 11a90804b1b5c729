/-!
# The calendar

Days of the proleptic Gregorian calendar, counted from 1 January 1970. Years are counted from
March, so that the day a leap year adds is the last of its year; the months of such a year
start at fixed days.
-/

namespace DocQuery.Time

/-- A date; the month and the day count from one. -/
structure Date where
  year : Int
  month : Nat
  day : Nat
  deriving DecidableEq, Repr

namespace Calendar

/-- Whether a year has a twenty-ninth of February. -/
def isLeap (year : Int) : Bool :=
  year % 4 == 0 && (year % 100 != 0 || year % 400 == 0)

/-- How many days a month has; none in what is no month. -/
def daysInMonth (year : Int) : Nat → Nat
  | 2 => if isLeap year then 29 else 28
  | 4 | 6 | 9 | 11 => 30
  | 1 | 3 | 5 | 7 | 8 | 10 | 12 => 31
  | _ => 0

/-- The days from 1 March of year zero to 1 March of a year. -/
def daysBeforeYear (year : Int) : Int :=
  365 * year + year / 4 - year / 100 + year / 400

/-- The days from 1 March to the first day of a month, the months being counted from March. -/
def daysBeforeMonth (month : Nat) : Nat :=
  (153 * month + 2) / 5

/-- The days from 1 March of year zero to 1 January 1970. -/
def epoch : Int := 719468

/-- The day number of a date. -/
def dayNumber (date : Date) : Int :=
  let early := date.month ≤ 2
  let year := if early then date.year - 1 else date.year
  let month := if early then date.month + 9 else date.month - 3
  daysBeforeYear year + daysBeforeMonth month + date.day - 1 - epoch

/-- The year, counted from March, that holds the day with this number from 1 March of year
zero: the mean length of a year tells it, or the one before it. -/
def yearOf (day : Int) : Int :=
  let guess := day * 400 / 146097
  if day < daysBeforeYear guess then guess - 1
  else if daysBeforeYear (guess + 1) ≤ day then guess + 1
  else guess

/-- The date with this day number. -/
def dateOf (number : Int) : Date :=
  let day := number + epoch
  let year := yearOf day
  let rest := (day - daysBeforeYear year).toNat
  let month := (5 * rest + 2) / 153
  let inMonth := rest - daysBeforeMonth month + 1
  if month < 10 then ⟨year, month + 3, inMonth⟩ else ⟨year + 1, month - 9, inMonth⟩

end Calendar

/-- Whether a date is in the calendar. -/
def Date.isValid (date : Date) : Bool :=
  1 ≤ date.day && date.day ≤ Calendar.daysInMonth date.year date.month

end DocQuery.Time
