import DocQuery.Time.Calendar

/-!
# Dates and day numbers

Every day number has a date in the calendar, and the day number of that date is the number again.
The year is found from the mean length of a year; since leap days come at the end of a year that
begins in March, the month and the day follow from the days that are left.

Main names:

* `yearOf_spec` — a year holds the days from its first of March to the next;
* `dayNumber_dateOf` — the day number of the date of a day;
* `isValid_dateOf` — the date is in the calendar;
* `dateOf_dayNumber` — a date in the calendar is the date of its day number.
-/

namespace DocQuery.Time.Calendar

theorem yearOf_spec (day : Int) :
    daysBeforeYear (yearOf day) ≤ day ∧ day < daysBeforeYear (yearOf day + 1) := by
  unfold yearOf daysBeforeYear
  simp only
  split
  · omega
  · split
    · omega
    · omega

/-- A year has 365 days; one day more if February of the next calendar year has. -/
theorem daysBeforeYear_succ (year : Int) :
    daysBeforeYear (year + 1) = daysBeforeYear year + 365 + (if isLeap (year + 1) then 1 else 0) := by
  have hleap : isLeap (year + 1) = true ↔
      (year + 1) % 4 = 0 ∧ ((year + 1) % 100 ≠ 0 ∨ (year + 1) % 400 = 0) := by
    unfold isLeap
    simp [bne_iff_ne]
  unfold daysBeforeYear
  by_cases h : isLeap (year + 1) = true
  · rw [if_pos h]
    rw [hleap] at h
    omega
  · rw [if_neg h]
    rw [hleap] at h
    omega

/-- The month and the day that the days of a year make. -/
theorem month_spec {rest : Nat} (hrest : rest < 366) :
    (5 * rest + 2) / 153 < 12 ∧ daysBeforeMonth ((5 * rest + 2) / 153) ≤ rest ∧
      rest < daysBeforeMonth ((5 * rest + 2) / 153 + 1) := by
  unfold daysBeforeMonth
  omega

/-- The days of a date, after the first of March of its year. -/
theorem dateOf_parts (number : Int) :
    ∃ (year : Int) (month rest : Nat), month < 12 ∧ daysBeforeMonth month ≤ rest ∧
      rest < daysBeforeMonth (month + 1) ∧ number + epoch = daysBeforeYear year + rest ∧
      number + epoch < daysBeforeYear (year + 1) ∧
      dateOf number =
        if month < 10 then ⟨year, month + 3, rest - daysBeforeMonth month + 1⟩
        else ⟨year + 1, month - 9, rest - daysBeforeMonth month + 1⟩ := by
  obtain ⟨hlow, hhigh⟩ := yearOf_spec (number + epoch)
  have hsucc := daysBeforeYear_succ (yearOf (number + epoch))
  have hlength : daysBeforeYear (yearOf (number + epoch) + 1) ≤
      daysBeforeYear (yearOf (number + epoch)) + 366 := by
    rw [hsucc]
    split <;> omega
  have hrest : (number + epoch - daysBeforeYear (yearOf (number + epoch))).toNat < 366 := by omega
  obtain ⟨hmonth, hstart, hend⟩ := month_spec hrest
  refine ⟨yearOf (number + epoch), _, _, hmonth, hstart, hend, ?_, hhigh, rfl⟩
  omega

theorem dayNumber_dateOf (number : Int) : dayNumber (dateOf number) = number := by
  obtain ⟨year, month, rest, hmonth, hstart, _, hday, _, hdate⟩ := dateOf_parts number
  rw [hdate]
  by_cases hearly : month < 10
  · rw [if_pos hearly]
    unfold dayNumber
    have hlate : ¬ month + 3 ≤ 2 := by omega
    simp only [hlate, if_false, Nat.add_sub_cancel]
    omega
  · rw [if_neg hearly]
    unfold dayNumber
    have hearly' : month - 9 ≤ 2 := by omega
    have hback : month - 9 + 9 = month := by omega
    simp only [hearly', if_true, hback, Int.add_sub_cancel]
    omega

/-- How many days a month has, the months being counted from March: those to the next month, or to
the end of the year after the last one, February. -/
theorem daysInMonth_march (year : Int) {month : Nat} (hmonth : month < 12) :
    (daysInMonth (if month < 10 then year else year + 1)
      (if month < 10 then month + 3 else month - 9) : Int) =
      min (daysBeforeMonth (month + 1) : Int) (daysBeforeYear (year + 1) - daysBeforeYear year) -
        daysBeforeMonth month := by
  have hsucc := daysBeforeYear_succ year
  have hcases : month < 10 ∨ month = 10 ∨ month = 11 := by omega
  rcases hcases with hearly | rfl | rfl
  · have hbefore : daysBeforeMonth (month + 1) ≤ 306 := by
      unfold daysBeforeMonth
      omega
    have hlength : daysInMonth year (month + 3) + daysBeforeMonth month =
        daysBeforeMonth (month + 1) := by
      have hcases : month = 0 ∨ month = 1 ∨ month = 2 ∨ month = 3 ∨ month = 4 ∨ month = 5 ∨
          month = 6 ∨ month = 7 ∨ month = 8 ∨ month = 9 := by omega
      rcases hcases with rfl | rfl | rfl | rfl | rfl | rfl | rfl | rfl | rfl | rfl <;> rfl
    rw [if_pos hearly, if_pos hearly]
    split at hsucc <;> omega
  · show (31 : Int) = min 337 _ - 306
    split at hsucc <;> omega
  · show ((if isLeap (year + 1) then 29 else 28 : Nat) : Int) = min 367 _ - 337
    split at hsucc
    · rename_i hleap
      rw [if_pos hleap]
      omega
    · rename_i hleap
      rw [if_neg hleap]
      omega

theorem isValid_dateOf (number : Int) : (dateOf number).isValid = true := by
  obtain ⟨year, month, rest, hmonth, hstart, hend, hday, hbound, hdate⟩ := dateOf_parts number
  have hlength := daysInMonth_march year hmonth
  rw [hdate]
  unfold Date.isValid
  rw [Bool.and_eq_true, decide_eq_true_eq, decide_eq_true_eq]
  by_cases hearly : month < 10 <;> simp only [hearly, if_true, if_false] at hlength ⊢ <;> omega

theorem daysInMonth_le (year : Int) (month : Nat) : daysInMonth year month ≤ 31 := by
  unfold daysInMonth
  split
  · split <;> decide
  all_goals decide

/-- The date of a day has a month of the year and at most thirty-one days. -/
theorem dateOf_le (number : Int) : (dateOf number).month ≤ 12 ∧ (dateOf number).day ≤ 31 := by
  obtain ⟨year, month, rest, hmonth, _, _, _, _, hdate⟩ := dateOf_parts number
  have hvalid := isValid_dateOf number
  unfold Date.isValid at hvalid
  rw [Bool.and_eq_true, decide_eq_true_eq, decide_eq_true_eq] at hvalid
  refine ⟨?_, Nat.le_trans hvalid.2 (daysInMonth_le _ _)⟩
  rw [hdate]
  split
  · show month + 3 ≤ 12
    omega
  · show month - 9 ≤ 12
    omega

/-! ## Valid dates -/

theorem daysBeforeYear_mono {a b : Int} (h : a ≤ b) : daysBeforeYear a ≤ daysBeforeYear b := by
  unfold daysBeforeYear
  omega

/-- A day lies in one year only. -/
theorem year_unique {day year year' : Int} (hlow : daysBeforeYear year ≤ day)
    (hhigh : day < daysBeforeYear (year + 1)) (hlow' : daysBeforeYear year' ≤ day)
    (hhigh' : day < daysBeforeYear (year' + 1)) : year = year' := by
  rcases Int.lt_trichotomy year year' with hlt | heq | hgt
  · have hmono := daysBeforeYear_mono (show year + 1 ≤ year' by omega)
    omega
  · exact heq
  · have hmono := daysBeforeYear_mono (show year' + 1 ≤ year by omega)
    omega

/-- The days that a valid date lies after the first of March of its year. -/
structure MarchDay (date : Date) (year : Int) (month : Nat) : Prop where
  month_lt : month < 12
  year_eq : date.year = if month < 10 then year else year + 1
  month_eq : date.month = if month < 10 then month + 3 else month - 9
  day_pos : 1 ≤ date.day
  day_lt : daysBeforeMonth month + (date.day - 1) < daysBeforeMonth (month + 1)
  number_eq : dayNumber date + epoch =
    daysBeforeYear year + (daysBeforeMonth month + (date.day - 1) : Nat)
  number_lt : dayNumber date + epoch < daysBeforeYear (year + 1)

theorem exists_marchDay {date : Date} (hvalid : date.isValid = true) :
    ∃ year month, MarchDay date year month := by
  obtain ⟨year, month, day⟩ := date
  unfold Date.isValid at hvalid
  rw [Bool.and_eq_true, decide_eq_true_eq, decide_eq_true_eq] at hvalid
  obtain ⟨hfirst, hlast⟩ := hvalid
  dsimp only at hfirst hlast
  have hmonth : 1 ≤ month ∧ month ≤ 12 := by
    unfold daysInMonth at hlast
    split at hlast <;> omega
  by_cases hearly : month ≤ 2
  · -- January and February end the year that began in March before.
    have hlate : ¬ month + 9 < 10 := by omega
    have hlength := daysInMonth_march (year - 1) (show month + 9 < 12 by omega)
    have hnumber : dayNumber ⟨year, month, day⟩ + epoch =
        daysBeforeYear (year - 1) + (daysBeforeMonth (month + 9) + (day - 1) : Nat) := by
      unfold dayNumber
      simp only [hearly, if_true]
      omega
    rw [if_neg hlate, if_neg hlate, Int.sub_add_cancel, Nat.add_sub_cancel] at hlength
    refine ⟨year - 1, month + 9, by omega, ?_, ?_, hfirst, ?_, hnumber, ?_⟩
    · rw [if_neg hlate, Int.sub_add_cancel]
    · rw [if_neg hlate, Nat.add_sub_cancel]
    · dsimp only
      omega
    · rw [hnumber, Int.sub_add_cancel]
      omega
  · have hlate : month - 3 < 10 := by omega
    have hmarch : month - 3 + 3 = month := by omega
    have hlength := daysInMonth_march year (show month - 3 < 12 by omega)
    have hnumber : dayNumber ⟨year, month, day⟩ + epoch =
        daysBeforeYear year + (daysBeforeMonth (month - 3) + (day - 1) : Nat) := by
      unfold dayNumber
      simp only [hearly, if_false]
      omega
    rw [if_pos hlate, if_pos hlate, hmarch] at hlength
    refine ⟨year, month - 3, by omega, ?_, ?_, hfirst, ?_, hnumber, ?_⟩
    · rw [if_pos hlate]
    · rw [if_pos hlate, hmarch]
    · dsimp only
      omega
    · rw [hnumber]
      omega

/-- The date of the day number of a valid date is the date again. -/
theorem dateOf_dayNumber {date : Date} (hvalid : date.isValid = true) :
    dateOf (dayNumber date) = date := by
  obtain ⟨year, month, hmarch⟩ := exists_marchDay hvalid
  obtain ⟨year', month', rest, hmonth, hstart, hend, hday, hbound, hdate⟩ :=
    dateOf_parts (dayNumber date)
  have hnumber := hmarch.number_eq
  obtain rfl : year = year' :=
    year_unique (by omega) hmarch.number_lt (by omega) hbound
  have hrest : rest = daysBeforeMonth month + (date.day - 1) := by omega
  have hfirst := hmarch.day_pos
  have hlast := hmarch.day_lt
  obtain rfl : month = month' := by
    unfold daysBeforeMonth at hrest hstart hend hlast
    omega
  have hinMonth : rest - daysBeforeMonth month + 1 = date.day := by omega
  rw [hdate, hinMonth]
  obtain ⟨_, _, day⟩ := date
  obtain rfl := hmarch.year_eq
  obtain rfl := hmarch.month_eq
  dsimp only
  split <;> rfl

end DocQuery.Time.Calendar
