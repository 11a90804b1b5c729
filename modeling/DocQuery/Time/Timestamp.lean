import DocQuery.Time.Calendar
import DocQuery.Time.Duration

/-!
# Timestamps

A timestamp is an instant, in nanoseconds from 1 January 1970 in universal time, with the
offset in minutes of the zone in which it is written. Instants reach from the first moment of
year `-262143` to the last of year `262142`.
-/

namespace DocQuery.Time

open DocQuery.Text

namespace Timestamp

/-- The first instant. -/
def earliest : Int := Calendar.dayNumber ⟨-262143, 1, 1⟩ * Duration.day

/-- The first instant that is too late. -/
def limit : Int := Calendar.dayNumber ⟨262143, 1, 1⟩ * Duration.day

end Timestamp

/-- An instant as it is written in some zone. -/
structure Timestamp where
  instant : Int
  offset : Int
  inRange : Timestamp.earliest ≤ instant ∧ instant < Timestamp.limit
  deriving DecidableEq, Repr

namespace Timestamp

/-- The timestamp of an instant, if it is in range. -/
def ofInstant? (instant offset : Int) : Option Timestamp :=
  if h : earliest ≤ instant ∧ instant < limit then some ⟨instant, offset, h⟩ else none

/-- The first moment of 1970. -/
def epoch : Timestamp := ⟨0, 0, by decide⟩

instance : Inhabited Timestamp := ⟨epoch⟩

/-- Moves a timestamp; its zone stays. -/
def add? (t : Timestamp) (d : Duration) : Option Timestamp :=
  ofInstant? (t.instant + d.nanoseconds) t.offset

def sub? (t : Timestamp) (d : Duration) : Option Timestamp :=
  ofInstant? (t.instant - d.nanoseconds) t.offset

/-- All instants lie closer together than the longest duration. -/
theorem difference_inRange (a b : Timestamp) :
    -longest ≤ a.instant - b.instant ∧ a.instant - b.instant ≤ longest := by
  have ha := a.inRange
  have hb := b.inRange
  have e : earliest = -8334601228800000000000 := by decide
  have l : limit = 8210266876800000000000 := by decide
  have g : longest = 9223372036854775807000000 := rfl
  omega

/-- The time from one instant to another. -/
def since (a b : Timestamp) : Duration :=
  ⟨a.instant - b.instant, difference_inRange a b⟩

/-- The parts of a timestamp as they are written. -/
structure Parts where
  year : Nat
  month : Nat
  day : Nat
  hour : Nat
  minute : Nat
  /-- Seconds, with a fraction after a point. -/
  second : Option (List Char)
  /-- `Z`, or a sign with hours and minutes. -/
  zone : Option (List Char)

/-- Why parts make no timestamp. -/
inductive BadTimestamp
  | date
  | seconds
  | time
  | offset
  deriving DecidableEq, Repr

/-- What is wrong, in words. -/
def BadTimestamp.message : BadTimestamp → String
  | .date => "no such date"
  | .seconds => "bad seconds"
  | .time => "no such time of day"
  | .offset => "bad offset"

/-- The offset of a zone in minutes. -/
def readZone? : List Char → Option Int
  | ['Z'] => some 0
  | [sign, h, i, ':', m, n] =>
    let hours := Digits.value [h, i]
    let minutes := Digits.value [m, n]
    if 23 < hours ∨ 59 < minutes then none
    else some ((if sign = '-' then -1 else 1) * (hours * 60 + minutes : Nat))
  | _ => none

/-- The timestamp with the given parts; without a zone they are in universal time. -/
def ofParts (parts : Parts) : Except BadTimestamp Timestamp := do
  let date : Date := ⟨parts.year, parts.month, parts.day⟩
  unless date.isValid do throw .date
  let (second, nanosecond) ←
    match parts.second with
    | none => pure (0, 0)
    | some text =>
      match Duration.splitSeconds? text with
      | some found => pure found
      | none => throw .seconds
  unless parts.hour < 24 && parts.minute < 60 && second < 60 do throw .time
  let offset ←
    match parts.zone with
    | none => pure 0
    | some zone =>
      match readZone? zone with
      | some offset => pure offset
      | none => throw .offset
  let clock := parts.hour * Duration.hour + parts.minute * Duration.minute +
    second * Duration.second + nanosecond
  -- The parts say what clocks show in the zone; the instant lies its offset earlier.
  let written : Int := Calendar.dayNumber date * Duration.day + clock
  match ofInstant? (written - offset * Duration.minute) offset with
  | some t => return t
  | none => throw .date

/-- A year has four digits at least, and a sign outside of the first ten thousand. -/
def writeYear (year : Int) : List Char :=
  if 0 ≤ year ∧ year ≤ 9999 then Digits.padded 4 year.natAbs
  else (if year < 0 then '-' else '+') :: Digits.padded 4 year.natAbs

/-- The fraction of a second: none, or three, six or nine digits, whichever is exact. -/
def writeFraction (nanosecond : Nat) : List Char :=
  if nanosecond = 0 then []
  else if nanosecond % 1000000 = 0 then '.' :: Digits.fixed 10 3 (nanosecond / 1000000)
  else if nanosecond % 1000 = 0 then '.' :: Digits.fixed 10 6 (nanosecond / 1000)
  else '.' :: Digits.fixed 10 9 nanosecond

/-- An offset as a sign with hours and minutes. -/
def writeOffset (offset : Int) : List Char :=
  (if offset < 0 then '-' else '+') ::
    (Digits.fixed 10 2 (offset.natAbs / 60) ++ ':' :: Digits.fixed 10 2 (offset.natAbs % 60))

/-- Date and time of day in the zone of the timestamp. -/
def writeLocal (t : Timestamp) : List Char :=
  let written := t.instant + t.offset * Duration.minute
  let date := Calendar.dateOf (written / Duration.day)
  let clock := (written % Duration.day).toNat
  writeYear date.year ++ '-' :: Digits.fixed 10 2 date.month ++ '-' :: Digits.fixed 10 2 date.day ++
    'T' :: Digits.fixed 10 2 (clock / Duration.hour) ++
    ':' :: Digits.fixed 10 2 (clock / Duration.minute % 60) ++
    ':' :: Digits.fixed 10 2 (clock / Duration.second % 60) ++
    writeFraction (clock % Duration.second)

/-- The text of a timestamp; universal time is written `Z`. -/
def write (t : Timestamp) : List Char :=
  t.writeLocal ++ (if t.offset = 0 then ['Z'] else writeOffset t.offset)

/-- The text of a timestamp with its offset spelt out in every case. -/
def writeNumeric (t : Timestamp) : List Char :=
  t.writeLocal ++ writeOffset t.offset

end Timestamp

end DocQuery.Time
