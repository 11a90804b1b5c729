import DocQuery.Time.Timestamp
import DocQuery.Proofs.Time.Calendar
import DocQuery.Proofs.Time.Duration

/-!
# Timestamps read back

The parts in which a timestamp is written make the timestamp again, if its local year has four
digits and its offset is shorter than a day. The date comes back from the day number and the time
of day from its remainder; the fraction of a second has three, six or nine digits, and counts the
same number of nanoseconds in each case.

Main names:

* `Timestamp.Plain` — the timestamps that are written with four digits for the year;
* `OnDate.plain` — parts with such a year make such a timestamp;
* `Timestamp.seconds`, `Timestamp.parts` — the parts that are written;
* `Timestamp.ofParts_parts` — they make the timestamp.
-/

namespace DocQuery.Time.Timestamp

open DocQuery.Text DocQuery.Text.Digits

/-! ## The parts of a timestamp -/

/-- Nanoseconds of the local clock since the first moment of 1970. -/
def written (t : Timestamp) : Int :=
  t.instant + t.offset * Duration.minute

/-- The local date. -/
def date (t : Timestamp) : Date :=
  Calendar.dateOf (t.written / Duration.day)

/-- Nanoseconds of the local clock since midnight. -/
def clock (t : Timestamp) : Nat :=
  (t.written % Duration.day).toNat

/-- The local year has four digits, and the offset is shorter than a day. -/
structure Plain (t : Timestamp) : Prop where
  year_nonneg : 0 ≤ t.date.year
  year_le : t.date.year ≤ 9999
  offset_lt : t.offset.natAbs < 1440

/-- The digits of the fraction of a second. -/
def fractionDigits (nanosecond : Nat) : List Char :=
  if nanosecond = 0 then []
  else if nanosecond % 1000000 = 0 then Digits.fixed 10 3 (nanosecond / 1000000)
  else if nanosecond % 1000 = 0 then Digits.fixed 10 6 (nanosecond / 1000)
  else Digits.fixed 10 9 nanosecond

theorem isDigit_of_mem_fractionDigits {nanosecond : Nat} {c : Char}
    (hc : c ∈ fractionDigits nanosecond) : c.isDigit = true := by
  unfold fractionDigits at hc
  split at hc
  · cases hc
  split at hc
  · exact isDigit_of_mem_fixed hc
  split at hc
  · exact isDigit_of_mem_fixed hc
  · exact isDigit_of_mem_fixed hc

theorem value_fractionDigits {nanosecond : Nat} (hlt : nanosecond < Duration.second) :
    value (Duration.nineDigits (fractionDigits nanosecond)) = nanosecond := by
  have hlt : nanosecond < 1000000000 := hlt
  unfold fractionDigits
  split
  · rename_i hzero
    rw [hzero]
    rfl
  split
  · rw [Duration.value_nineDigits (by simp only [length_fixed]; decide), length_fixed,
      value_fixed_of_lt (by omega)]
    omega
  split
  · rw [Duration.value_nineDigits (by simp only [length_fixed]; decide), length_fixed,
      value_fixed_of_lt (by omega)]
    omega
  · rw [Duration.value_nineDigits (by simp only [length_fixed]; decide), length_fixed,
      value_fixed_of_lt (by omega)]
    omega

/-- The seconds of a timestamp with their fraction. -/
def seconds (t : Timestamp) : PointedDigits where
  whole := Digits.fixed 10 2 (t.clock / Duration.second % 60)
  fraction := fractionDigits (t.clock % Duration.second)
  whole_ne_nil := List.append_ne_nil_of_right_ne_nil _ (List.cons_ne_nil _ _)
  isDigit_whole := fun _ hc => isDigit_of_mem_fixed hc
  isDigit_fraction := fun _ hc => isDigit_of_mem_fractionDigits hc

/-- The zone of a timestamp. -/
def zone (t : Timestamp) : List Char :=
  if t.offset = 0 then ['Z'] else writeOffset t.offset

/-- The parts in which a timestamp is written. -/
def parts (t : Timestamp) : Parts where
  year := t.date.year.natAbs
  month := t.date.month
  day := t.date.day
  hour := t.clock / Duration.hour
  minute := t.clock / Duration.minute % 60
  second := some t.seconds.text
  zone := some t.zone

theorem writeFraction_eq (nanosecond : Nat) :
    writeFraction nanosecond =
      if fractionDigits nanosecond = [] then [] else '.' :: fractionDigits nanosecond := by
  have hfixed : ∀ width n, Digits.fixed 10 (width + 1) n ≠ [] := fun width n =>
    List.append_ne_nil_of_right_ne_nil _ (List.cons_ne_nil _ _)
  unfold writeFraction fractionDigits
  split
  · rfl
  split
  · rw [if_neg (hfixed 2 _)]
  split
  · rw [if_neg (hfixed 5 _)]
  · rw [if_neg (hfixed 8 _)]

/-- How a timestamp is written, part by part. -/
theorem write_eq {t : Timestamp} (ht : t.Plain) :
    t.write = Digits.padded 4 t.parts.year ++ ('-' :: (Digits.fixed 10 2 t.parts.month ++
      ('-' :: (Digits.fixed 10 2 t.parts.day ++ ('T' :: (Digits.fixed 10 2 t.parts.hour ++
        (':' :: (Digits.fixed 10 2 t.parts.minute ++ (':' :: (t.seconds.text ++
          t.zone)))))))))) := by
  have hyear : writeYear t.date.year = Digits.padded 4 t.date.year.natAbs := by
    unfold writeYear
    rw [if_pos ⟨ht.year_nonneg, ht.year_le⟩]
  have hseconds : t.seconds.text = Digits.fixed 10 2 (t.clock / Duration.second % 60) ++
      writeFraction (t.clock % Duration.second) := by
    rw [writeFraction_eq]
    rfl
  rw [hseconds]
  unfold write
  rw [show t.writeLocal = writeYear t.date.year ++ '-' :: Digits.fixed 10 2 t.date.month ++
    '-' :: Digits.fixed 10 2 t.date.day ++ 'T' :: Digits.fixed 10 2 (t.clock / Duration.hour) ++
    ':' :: Digits.fixed 10 2 (t.clock / Duration.minute % 60) ++
    ':' :: Digits.fixed 10 2 (t.clock / Duration.second % 60) ++
    writeFraction (t.clock % Duration.second) from rfl, hyear]
  simp only [List.append_assoc, List.cons_append]
  rfl

/-! ## Reading the parts -/

theorem readZone_clock (sign h i m n : Char) :
    readZone? [sign, h, i, ':', m, n] =
      if 23 < value [h, i] ∨ 59 < value [m, n] then none
      else some ((if sign = '-' then -1 else 1) *
        ((value [h, i] * 60 + value [m, n] : Nat) : Int)) := by
  unfold readZone?
  split
  · rename_i heq
    cases heq
  · rename_i heq
    cases heq
    rfl
  · rename_i hnone
    exact absurd rfl (hnone _ _ _ _ _)

theorem fixed_two (n : Nat) :
    Digits.fixed 10 2 n = [digitChar (n / 10 % 10), digitChar (n % 10)] := rfl

theorem readZone_writeOffset {offset : Int} (hoffset : offset.natAbs < 1440) :
    readZone? (writeOffset offset) = some offset := by
  have hhours : value (Digits.fixed 10 2 (offset.natAbs / 60)) = offset.natAbs / 60 :=
    value_fixed_of_lt (by omega)
  have hminutes : value (Digits.fixed 10 2 (offset.natAbs % 60)) = offset.natAbs % 60 :=
    value_fixed_of_lt (by omega)
  have hrange : ¬ (23 < offset.natAbs / 60 ∨ 59 < offset.natAbs % 60) := by omega
  unfold writeOffset
  rw [fixed_two] at hhours hminutes
  rw [fixed_two, fixed_two, List.cons_append, List.singleton_append, readZone_clock, hhours,
    hminutes, if_neg hrange]
  congr 1
  by_cases hneg : offset < 0
  · rw [if_pos hneg, if_pos rfl]
    omega
  · rw [if_neg hneg, if_neg (by decide)]
    omega

theorem readZone_zone {t : Timestamp} (ht : t.Plain) : readZone? t.zone = some t.offset := by
  unfold zone
  split
  · rename_i hzero
    rw [hzero]
    rfl
  · exact readZone_writeOffset ht.offset_lt

theorem splitSeconds_seconds (t : Timestamp) :
    Duration.splitSeconds? t.seconds.text =
      some (t.clock / Duration.second % 60, t.clock % Duration.second) := by
  have hwhole : value t.seconds.whole = t.clock / Duration.second % 60 :=
    value_fixed_of_lt (by omega)
  have hfraction : value (Duration.nineDigits t.seconds.fraction) = t.clock % Duration.second :=
    value_fractionDigits (Nat.mod_lt _ (by decide))
  rw [Duration.splitSeconds_pointed (by rw [hwhole]; omega), hwhole, hfraction]

theorem clock_lt (t : Timestamp) : t.clock < Duration.day := by
  have hpos : (0 : Int) < (Duration.day : Nat) := by decide
  have hlt := Int.emod_lt_of_pos t.written hpos
  have hnonneg := Int.emod_nonneg t.written (Int.ne_of_gt hpos)
  unfold clock
  omega

/-- The day and the time of day make up the local clock. -/
theorem written_eq (t : Timestamp) :
    Calendar.dayNumber t.date * Duration.day + (t.clock : Int) = t.written := by
  have hpos : (0 : Int) < (Duration.day : Nat) := by decide
  have hnonneg := Int.emod_nonneg t.written (Int.ne_of_gt hpos)
  have hsplit := Int.mul_ediv_add_emod t.written (Duration.day : Nat)
  unfold date clock
  rw [Calendar.dayNumber_dateOf, Int.toNat_of_nonneg hnonneg, Int.mul_comm]
  exact hsplit

theorem hour_lt (t : Timestamp) : t.parts.hour < 24 := by
  have hclock := clock_lt t
  unfold Duration.day at hclock
  exact Nat.div_lt_of_lt_mul (by omega)

theorem minute_lt (t : Timestamp) : t.parts.minute < 60 := Nat.mod_lt _ (by decide)

/-- The parts in which a timestamp is written make it again. -/
theorem ofParts_parts {t : Timestamp} (ht : t.Plain) : ofParts t.parts = .ok t := by
  have hdate : (⟨t.parts.year, t.parts.month, t.parts.day⟩ : Date) = t.date := by
    have hyear : ((t.date.year.natAbs : Nat) : Int) = t.date.year := by
      have hnonneg := ht.year_nonneg
      omega
    show (⟨((t.date.year.natAbs : Nat) : Int), t.date.month, t.date.day⟩ : Date) = t.date
    rw [hyear]
  have hvalid : t.date.isValid = true := Calendar.isValid_dateOf _
  have hhour := hour_lt t
  have hminute := minute_lt t
  have hsecond : t.clock / Duration.second % 60 < 60 := Nat.mod_lt _ (by decide)
  have hsum := (Duration.clock_parts t.clock).2.2
  have hrange := t.inRange
  have hwritten := written_eq t
  have hinstant : t.parts.hour * Duration.hour + t.parts.minute * Duration.minute +
      t.clock / Duration.second % 60 * Duration.second + t.clock % Duration.second = t.clock := by
    rw [Nat.add_assoc]
    exact hsum
  have hback : ofInstant? (t.written - t.offset * Duration.minute) t.offset = some t := by
    have hsub : t.written - t.offset * Duration.minute = t.instant := by
      unfold written
      exact Int.add_sub_cancel _ _
    rw [hsub]
    unfold ofInstant?
    rw [dif_pos hrange]
  have htime : (decide (t.parts.hour < 24) && decide (t.parts.minute < 60) &&
      decide (t.clock / Duration.second % 60 < 60)) = true := by
    rw [decide_eq_true hhour, decide_eq_true hminute, decide_eq_true hsecond]
    rfl
  have htext : t.parts.second = some t.seconds.text := rfl
  have hzone : t.parts.zone = some t.zone := rfl
  -- Every check passes, and the instant that the parts make is the one they were taken from.
  unfold ofParts
  simp only [hdate, hvalid, htext, hzone, splitSeconds_seconds, readZone_zone ht, pure_bind,
    if_true, htime, hinstant, hwritten, hback]
  rfl

/-! ## What the parts have told -/

theorem offset_of_readZone {zone : List Char} {offset : Int} (hzone : readZone? zone = some offset) :
    offset.natAbs < 1440 := by
  unfold readZone? at hzone
  split at hzone
  · cases hzone
    decide
  · dsimp only at hzone
    split at hzone
    · cases hzone
    · rw [Option.some.injEq] at hzone
      split at hzone <;> omega
  · cases hzone

theorem ofInstant_eq_some {instant offset : Int} {t : Timestamp}
    (ht : ofInstant? instant offset = some t) : t.instant = instant ∧ t.offset = offset := by
  unfold ofInstant? at ht
  split at ht
  · cases ht
    exact ⟨rfl, rfl⟩
  · cases ht

/-- What is read of parts lies on their date in their zone, at some time of the day. -/
structure OnDate (parts : Parts) (t : Timestamp) : Prop where
  valid : (⟨parts.year, parts.month, parts.day⟩ : Date).isValid = true
  offset_lt : t.offset.natAbs < 1440
  clock : ∃ second nanosecond : Nat, parts.hour < 24 ∧ parts.minute < 60 ∧ second < 60 ∧
    nanosecond < Duration.second ∧
    t.written = Calendar.dayNumber ⟨parts.year, parts.month, parts.day⟩ * Duration.day +
      (parts.hour * Duration.hour + parts.minute * Duration.minute +
        second * Duration.second + nanosecond : Nat)

theorem onDate_of_ofInstant {parts : Parts} {t : Timestamp} {found : Nat × Nat} {offset : Int}
    (hvalid : (⟨parts.year, parts.month, parts.day⟩ : Date).isValid = true)
    (hnanosecond : found.2 < Duration.second) (hoffset : offset.natAbs < 1440)
    (htime : (decide (parts.hour < 24) && decide (parts.minute < 60) && decide (found.1 < 60)) = true)
    (ht : ofInstant? (Calendar.dayNumber ⟨parts.year, parts.month, parts.day⟩ * Duration.day +
      (parts.hour * Duration.hour + parts.minute * Duration.minute +
        found.1 * Duration.second + found.2 : Nat) - offset * Duration.minute) offset = some t) :
    OnDate parts t := by
  simp only [Bool.and_eq_true, decide_eq_true_eq] at htime
  obtain ⟨hinstant, hzone⟩ := ofInstant_eq_some ht
  refine ⟨hvalid, hzone ▸ hoffset, found.1, found.2, htime.1.1, htime.1.2, htime.2, hnanosecond, ?_⟩
  unfold written
  rw [hinstant, hzone, Int.sub_add_cancel]

theorem onDate_of_ofParts {parts : Parts} {t : Timestamp} (hread : ofParts parts = .ok t) :
    OnDate parts t := by
  unfold ofParts at hread
  dsimp only at hread
  split at hread
  case isFalse => cases hread
  rename_i hvalid
  split at hread
  case' h_1 =>
    have hnanosecond : ((0, 0) : Nat × Nat).2 < Duration.second := by decide
  case' h_2 =>
    split at hread
    case h_2 => cases hread
    rename_i hsplit
    have hnanosecond := Duration.nanoseconds_lt_of_splitSeconds hsplit
  -- With seconds and without them, the zone may be missing.
  all_goals
    rw [pure_bind] at hread
    split at hread
    case isFalse => cases hread
    rename_i htime
    split at hread
    case' h_1 => have hoffset : (0 : Int).natAbs < 1440 := by decide
    case' h_2 =>
      split at hread
      case h_2 => cases hread
      rename_i hzone
      have hoffset := offset_of_readZone hzone
    all_goals
      rw [pure_bind] at hread
      split at hread
      case h_2 => cases hread
      rename_i hfound
      cases hread
      exact onDate_of_ofInstant hvalid hnanosecond hoffset htime hfound

/-- Parts with a year of four digits make a timestamp that is written with one. -/
theorem OnDate.plain {parts : Parts} {t : Timestamp} (ht : OnDate parts t)
    (hyear : parts.year ≤ 9999) : t.Plain := by
  obtain ⟨second, nanosecond, hhour, hminute, hsecond, hnanosecond, hwritten⟩ := ht.clock
  have hdate : t.date = ⟨parts.year, parts.month, parts.day⟩ := by
    have hday : t.written / Duration.day = Calendar.dayNumber ⟨parts.year, parts.month, parts.day⟩ := by
      rw [hwritten]
      unfold Duration.day Duration.hour Duration.minute Duration.second at *
      omega
    unfold date
    rw [hday, Calendar.dateOf_dayNumber ht.valid]
  refine ⟨?_, ?_, ht.offset_lt⟩
  · rw [hdate]
    exact Int.natCast_nonneg _
  · rw [hdate]
    exact Int.ofNat_le.mpr hyear

end DocQuery.Time.Timestamp
