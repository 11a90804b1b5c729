import DocQuery.Proofs.Language.Numbers
import DocQuery.Proofs.Time.Duration

/-!
# Durations in a text

The components of a duration are numbers with units, each of which may be missing. Whether a
component is there is decided by its unit, after its digits: the rule for a unit refuses digits
that another unit follows.

Main names:

* `NotUnit` — a text does not begin with a number of a unit;
* `takes_clock` — the part of a duration below a day;
* `takes_durationLiteral` — a written duration;
* `parse_writtenDuration` — nothing of it is left, and it is read as the same duration.
-/

namespace DocQuery.Language

open Grammar Text Text.Digits Time Time.Duration

variable {rest : List Char}

/-! ## Numbers with units -/

/-- A text does not begin with digits that are followed by a certain unit. -/
def NotUnit (unit : Char) (text : List Char) : Prop :=
  ∃ digits after, text = digits ++ after ∧ (∀ c ∈ digits, c.isDigit = true) ∧
    Avoids .digit after ∧ ¬ [unit] <+: after

theorem notUnit_of_avoids {unit : Char} (hdigit : Avoids .digit rest) (hunit : ¬ [unit] <+: rest) :
    NotUnit unit rest :=
  ⟨[], rest, rfl, fun _ hc => absurd hc List.not_mem_nil, hdigit, hunit⟩

/-- A number of one unit is no number of another one. -/
theorem notUnit_writeUnit {unit unit' : Char} (hne : unit ≠ unit') (hunit' : unit'.isDigit = false)
    (count : Nat) (hrest : NotUnit unit rest) : NotUnit unit (writeUnit count unit' ++ rest) := by
  unfold writeUnit
  split
  · exact hrest
  · refine ⟨Digits.ofNat count, unit' :: rest, ?_, fun c hc => isDigit_of_mem_ofNat hc,
      avoids_digit hunit' _, not_prefix_cons hne [] _⟩
    rw [List.append_assoc]
    rfl

theorem notUnit_seconds {unit : Char} (hpoint : unit ≠ '.') (hseconds : unit ≠ 'S') (p : PointedDigits)
    (rest : List Char) : NotUnit unit (p.text ++ ('S' :: rest)) := by
  refine ⟨p.whole, p.tail ++ ('S' :: rest), List.append_assoc .., p.isDigit_whole,
    PointedDigits.avoids_tail p (by decide) (avoids_cons (by decide) _), ?_⟩
  unfold PointedDigits.tail
  split
  · exact not_prefix_cons hseconds [] _
  · exact not_prefix_cons hpoint [] _

theorem notUnit_writeSeconds {unit : Char} (hpoint : unit ≠ '.') (hseconds : unit ≠ 'S')
    {seconds nanoseconds : Nat} (hnanoseconds : nanoseconds < second) (hrest : NotUnit unit rest) :
    NotUnit unit (writeSeconds seconds nanoseconds ++ rest) := by
  rw [writeSeconds_eq hnanoseconds]
  split
  · exact hrest
  · rw [List.append_assoc]
    exact notUnit_seconds hpoint hseconds _ rest

/-- The rule of a unit: digits and the unit. -/
structure UnitRule (rule : Rule) (unit : Char) : Prop where
  mode : grammar.mode rule = .silent
  body : grammar.body rule = .seq (.rule .digits) (.text [unit])
  unit : unit.isDigit = false

theorem unitRule_days : UnitRule .durationDays 'D' := ⟨rfl, rfl, rfl⟩

theorem unitRule_hours : UnitRule .durationHours 'H' := ⟨rfl, rfl, rfl⟩

theorem unitRule_minutes : UnitRule .durationMinutes 'M' := ⟨rfl, rfl, rfl⟩

theorem takes_unit {rule : Rule} {unit : Char} (hrule : UnitRule rule unit) {count : Nat}
    (hcount : count ≠ 0) (rest : List Char) (fuel : Nat) :
    Takes (runRule grammar (fuel + 2) .token rule) (writeUnit count unit) rest Leafless := by
  unfold writeUnit
  rw [if_neg hcount]
  refine takes_silent hrule.mode ?_
  unfold Grammar.runBody
  rw [hrule.mode, hrule.body]
  exact takes_seq_tight (tight_token true) (takes_call (takes_digits (ofNat_ne_nil count)
    (fun c hc => isDigit_of_mem_ofNat hc) (avoids_digit hrule.unit _) fuel)) (takes_text [unit])
    leafless_then

theorem refuses_unit {rule : Rule} {unit : Char} (hrule : UnitRule rule unit) {text : List Char}
    (htext : NotUnit unit text) (fuel : Nat) :
    Refuses (runRule grammar (fuel + 2) .token rule) text := by
  obtain ⟨digits, after, rfl, hdigits, hafter, hunit⟩ := htext
  refine refuses_rule ?_
  unfold Grammar.runBody
  rw [hrule.mode, hrule.body]
  cases digits with
  | nil => exact refuses_seq_left (refuses_call (refuses_digits hafter fuel .token))
  | cons d digits =>
      exact refuses_seq_tight (tight_token true) (takes_call (takes_digits (List.cons_ne_nil _ _)
        hdigits hafter fuel)) (refuses_text hunit)

/-- A component that may be missing. -/
theorem takes_optionalUnit {rule : Rule} {unit : Char} (hrule : UnitRule rule unit) (count : Nat)
    (hrest : NotUnit unit rest) (fuel : Nat) :
    Takes ((Pattern.optional (.rule rule)).run grammar.blank ⟨.token, true⟩
      (runRule grammar (fuel + 2) .token)) (writeUnit count unit) rest Leafless := by
  by_cases hzero : count = 0
  · rw [hzero]
    exact takes_optional_none (refuses_call (refuses_unit hrule hrest fuel))
  · exact takes_optional_some (takes_call (takes_unit hrule hzero rest fuel))

/-! ## Seconds -/

theorem takes_durationSeconds (p : PointedDigits) (rest : List Char) (fuel : Nat) :
    Takes (runRule grammar (fuel + 2) .token .durationSeconds) (p.text ++ ['S']) rest Leafless := by
  have htight := tight_token true
  have hwhole : Takes (runRule grammar (fuel + 1) .token .digits) p.whole
      ((p.tail ++ ['S']) ++ rest) Leafless := by
    refine takes_digits p.whole_ne_nil p.isDigit_whole ?_ fuel
    rw [List.append_assoc]
    exact PointedDigits.avoids_tail p (by decide) (avoids_cons (by decide) _)
  have hfraction : Takes (fractionPattern.run grammar.blank ⟨.token, true⟩
      (runRule grammar (fuel + 1) .token)) p.tail (['S'] ++ rest) Leafless := by
    unfold PointedDigits.tail
    split
    · exact takes_optional_none (refuses_seq_left (refuses_text (not_prefix_cons (by decide) _ _)))
    · rename_i hfraction
      exact takes_optional_some (takes_seq_tight htight (takes_text ['.']) (takes_call
        (takes_digits hfraction p.isDigit_fraction (avoids_cons (by decide) _) fuel))
        leafless_then)
  unfold PointedDigits.text
  rw [List.append_assoc]
  refine takes_silent rfl ?_
  exact takes_seq_tight htight (takes_call hwhole)
    (takes_seq_tight htight hfraction (takes_text ['S']) leafless_then)
    leafless_then

theorem takes_seconds {seconds nanoseconds : Nat} (hnanoseconds : nanoseconds < second)
    (hsome : ¬ (seconds = 0 ∧ nanoseconds = 0)) (rest : List Char) (fuel : Nat) :
    Takes (runRule grammar (fuel + 2) .token .durationSeconds) (writeSeconds seconds nanoseconds)
      rest Leafless := by
  rw [writeSeconds_eq hnanoseconds, if_neg hsome]
  exact takes_durationSeconds _ rest fuel

theorem takes_optionalSeconds (seconds : Nat) {nanoseconds : Nat} (hnanoseconds : nanoseconds < second)
    (hrest : Avoids .digit rest) (fuel : Nat) :
    Takes ((Pattern.optional (.rule .durationSeconds)).run grammar.blank ⟨.token, true⟩
      (runRule grammar (fuel + 2) .token)) (writeSeconds seconds nanoseconds) rest Leafless := by
  by_cases hzero : seconds = 0 ∧ nanoseconds = 0
  · rw [writeSeconds_eq hnanoseconds, if_pos hzero]
    exact takes_optional_none (refuses_call (refuses_rule
      (refuses_seq_left (refuses_call (refuses_digits hrest fuel .token)))))
  · exact takes_optional_some (takes_call (takes_seconds hnanoseconds hzero rest fuel))

/-! ## The part below a day -/

/-- What may follow a duration. -/
structure EndsDuration (rest : List Char) : Prop where
  digit : Avoids .digit rest
  unit : Avoids (.oneOf ['H', 'M', 'T']) rest

/-- The components below a day. -/
abbrev clockPattern : Pattern Rule :=
  .choice (.seq (.rule .durationHours) (.seq (.optional (.rule .durationMinutes))
    (.optional (.rule .durationSeconds))))
    (.choice (.seq (.rule .durationMinutes) (.optional (.rule .durationSeconds)))
      (.rule .durationSeconds))

/-- The first component that is there selects the alternative. -/
theorem takes_clockPattern {hours minutes seconds nanoseconds : Nat}
    (hnanoseconds : nanoseconds < second)
    (hsome : ¬ (hours = 0 ∧ minutes = 0 ∧ seconds = 0 ∧ nanoseconds = 0))
    (hrest : EndsDuration rest) (fuel : Nat) :
    Takes (clockPattern.run grammar.blank ⟨.token, true⟩ (runRule grammar (fuel + 2) .token))
      (writeUnit hours 'H' ++ (writeUnit minutes 'M' ++ writeSeconds seconds nanoseconds)) rest
      Leafless := by
  have htight := tight_token true
  have hoptional := takes_optionalSeconds seconds hnanoseconds hrest.digit fuel
  have hminute : NotUnit 'M' (writeSeconds seconds nanoseconds ++ rest) :=
    notUnit_writeSeconds (by decide) (by decide) hnanoseconds
      (notUnit_of_avoids hrest.digit (hrest.unit.not_prefix (by decide) []))
  have hhour : NotUnit 'H' (writeUnit minutes 'M' ++ (writeSeconds seconds nanoseconds ++ rest)) :=
    notUnit_writeUnit (by decide) (by decide) minutes (notUnit_writeSeconds (by decide) (by decide)
      hnanoseconds (notUnit_of_avoids hrest.digit (hrest.unit.not_prefix (by decide) [])))
  -- The pattern has an alternative for each unit that may come first: the earlier ones are refused.
  by_cases hhours : hours = 0
  · have hnone : writeUnit hours 'H' = [] := if_pos hhours
    rw [hnone, List.nil_append]
    refine takes_choice_right (refuses_seq_left (refuses_call ?_)) ?_
    · rw [List.append_assoc]
      exact refuses_unit unitRule_hours hhour fuel
    by_cases hminutes : minutes = 0
    · have hnone : writeUnit minutes 'M' = [] := if_pos hminutes
      rw [hnone, List.nil_append]
      refine takes_choice_right (refuses_seq_left (refuses_call ?_)) (takes_call ?_)
      · exact refuses_unit unitRule_minutes hminute fuel
      · exact takes_seconds hnanoseconds (fun hzero => hsome ⟨hhours, hminutes, hzero⟩) rest fuel
    · exact takes_choice_left (takes_seq_tight htight
        (takes_call (takes_unit unitRule_minutes hminutes _ fuel)) hoptional
        leafless_then)
  · exact takes_choice_left (takes_seq_tight htight
      (takes_call (takes_unit unitRule_hours hhours _ fuel))
      (takes_seq_tight htight (takes_optionalUnit unitRule_minutes minutes hminute fuel) hoptional
        leafless_then) leafless_then)

theorem takes_clock {n : Nat} (hn : n ≠ 0) (hrest : EndsDuration rest) (fuel : Nat) :
    Takes (runRule grammar (fuel + 3) .token .durationClock) (writeClock n) rest Leafless := by
  obtain ⟨_, hnanoseconds, hsum⟩ := clock_parts n
  unfold writeClock
  rw [if_neg hn, List.append_assoc]
  refine takes_silent rfl (takes_seq_tight (tight_token true) (takes_text ['T'])
    (takes_clockPattern hnanoseconds ?_ hrest fuel) leafless_then)
  rintro ⟨hhours, hminutes, hseconds, hzero⟩
  rw [hhours, hminutes, hseconds, hzero, Nat.zero_mul, Nat.zero_mul, Nat.zero_mul] at hsum
  exact hn hsum.symm

/-! ## Whole durations -/

/-- The components of a duration: weeks, or days and what is below a day. -/
abbrev componentsPattern : Pattern Rule :=
  .choice (.seq (.rule .digits) (.text ['W']))
    (.choice (.seq (.rule .durationDays) (.optional (.rule .durationClock)))
      (.rule .durationClock))

/-- Without days the clock is the only alternative left. -/
theorem takes_components_clock {text : List Char} (hdigit : Avoids .digit (text ++ rest)) (fuel : Nat)
    (hclock : Takes (runRule grammar (fuel + 3) .token .durationClock) text rest Leafless) :
    Takes (componentsPattern.run grammar.blank ⟨.token, false⟩ (runRule grammar (fuel + 3) .token))
      text rest Leafless := by
  refine takes_choice_right (refuses_seq_left (refuses_call (refuses_digits hdigit _ .token))) ?_
  refine takes_choice_right (refuses_seq_left (refuses_call ?_)) (takes_call hclock)
  exact refuses_rule (refuses_seq_left (refuses_call (refuses_digits hdigit _ .token)))

theorem takes_components {n : Nat} (hn : n ≠ 0) (hrest : EndsDuration rest) (fuel : Nat) :
    Takes (componentsPattern.run grammar.blank ⟨.token, false⟩ (runRule grammar (fuel + 3) .token))
      (writeUnit (n / day) 'D' ++ writeClock (n % day)) rest Leafless := by
  have htight := tight_token false
  have hsplit : n / day * day + n % day = n := Nat.div_add_mod' n day
  -- Without days the pattern for the clock comes first, and with days the clock may be missing.
  by_cases hdays : n / day = 0
  · have hsome : n % day ≠ 0 := by
      intro hzero
      rw [hdays, hzero, Nat.zero_mul] at hsplit
      exact hn hsplit.symm
    have hnone : writeUnit (n / day) 'D' = [] := if_pos hdays
    rw [hnone, List.nil_append]
    refine takes_components_clock ?_ fuel (takes_clock hsome hrest fuel)
    unfold writeClock
    rw [if_neg hsome]
    exact avoids_cons (by decide) _
  · have hunit : writeUnit (n / day) 'D' = Digits.ofNat (n / day) ++ ['D'] := if_neg hdays
    have hclock : Takes ((Pattern.optional (.rule .durationClock)).run grammar.blank
        ⟨.token, false⟩ (runRule grammar (fuel + 3) .token)) (writeClock (n % day)) rest
        Leafless := by
      by_cases hzero : n % day = 0
      · rw [hzero]
        exact takes_optional_none (refuses_call (refuses_rule (refuses_seq_left
          (refuses_text (hrest.unit.not_prefix (by decide) [])))))
      · exact takes_optional_some (takes_call (takes_clock hzero hrest fuel))
    refine takes_choice_right ?_ (takes_choice_left (takes_seq_tight htight
      (takes_call (takes_unit unitRule_days hdays _ (fuel + 1))) hclock
      leafless_then))
    rw [hunit, List.append_assoc, List.append_assoc]
    exact refuses_seq_tight htight (takes_call (takes_digits (ofNat_ne_nil _)
      (fun c hc => isDigit_of_mem_ofNat hc) (avoids_cons (by decide) _) (fuel + 2)))
      (refuses_text (not_prefix_cons (by decide) _ _))

/-- The duration of no length has no component but zero seconds. -/
theorem takes_components_zero (rest : List Char) (fuel : Nat) :
    Takes (componentsPattern.run grammar.blank ⟨.token, false⟩ (runRule grammar (fuel + 3) .token))
      "T0S".toList rest Leafless := by
  let p : PointedDigits := ⟨['0'], [], List.cons_ne_nil _ _, by decide, by decide⟩
  refine takes_components_clock (avoids_cons (by decide) _) fuel ?_
  refine takes_silent rfl (takes_seq_tight (tight_token true) (takes_text ['T']) ?_
    leafless_then)
  show Takes (clockPattern.run grammar.blank ⟨.token, true⟩ (runRule grammar (fuel + 2) .token))
    (p.text ++ ['S']) rest Leafless
  have hhour : NotUnit 'H' ((p.text ++ ['S']) ++ rest) := by
    rw [List.append_assoc]
    exact notUnit_seconds (by decide) (by decide) p rest
  have hminute : NotUnit 'M' ((p.text ++ ['S']) ++ rest) := by
    rw [List.append_assoc]
    exact notUnit_seconds (by decide) (by decide) p rest
  refine takes_choice_right (refuses_seq_left (refuses_call ?_)) ?_
  · exact refuses_unit unitRule_hours hhour fuel
  refine takes_choice_right (refuses_seq_left (refuses_call ?_)) ?_
  · exact refuses_unit unitRule_minutes hminute fuel
  · exact takes_call (takes_durationSeconds p rest fuel)

/-- A sign, where there is one, and the letter of durations before the components. -/
theorem takes_durationText {text : List Char} (negative : Bool)
    (hend : Avoids Rule.nameChar rest) (fuel : Nat) {outer : Atomicity} (houter : outer ≠ .token)
    (hcomponents : Takes (componentsPattern.run grammar.blank ⟨.token, false⟩
      (runRule grammar (fuel + 3) .token)) text rest Leafless) :
    Takes (runRule grammar (fuel + 4) outer .durationLiteral) (minus negative ++ ('P' :: text)) rest
      (IsNode .durationLiteral (minus negative ++ ('P' :: text)) Leafless) := by
  have htight := tight_token false
  have hword : Takes ((Pattern.seq componentsPattern Rule.wordEnd).run grammar.blank
      ⟨.token, false⟩ (runRule grammar (fuel + 3) .token)) (text ++ []) rest Leafless :=
    takes_seq_tight htight hcomponents (takes_wordEnd hend) leafless_then
  rw [List.append_nil] at hword
  refine takes_node (by decide) (Or.inl houter) ?_
  exact takes_signed htight negative (not_prefix_cons (by decide) _ _)
    (takes_seq_tight htight (takes_text ['P']) hword leafless_then)

theorem takes_durationLiteral (d : Duration) (hrest : EndsDuration rest)
    (hend : Avoids Rule.nameChar rest) (fuel : Nat) {outer : Atomicity} (houter : outer ≠ .token) :
    Takes (runRule grammar (fuel + 4) outer .durationLiteral) d.write rest
      (IsNode .durationLiteral d.write Leafless) := by
  unfold Duration.write
  by_cases hzero : d.nanoseconds.natAbs = 0
  · simp only [hzero, if_true]
    exact takes_durationText false hend fuel houter (takes_components_zero rest fuel)
  · simp only [hzero, if_false]
    have htext := takes_durationText (decide (d.nanoseconds < 0)) hend fuel houter
      (takes_components hzero hrest fuel)
    unfold minus at htext
    simp only [decide_eq_true_eq] at htext
    exact htext

theorem endsDuration_nil : EndsDuration [] :=
  ⟨avoids_nil _, avoids_nil _⟩

/-- The text of every duration is a duration of the grammar from its beginning to its end, and is
read as the duration that was written. -/
theorem parse_writtenDuration (d : Duration) :
    ∃ tree attempts,
      grammar.parse .durationLiteral d.write =
          (.matched ⟨Place.first.past d.write, []⟩ [tree], attempts) ∧
        tree.rule = .durationLiteral ∧ tree.text = d.write ∧ Duration.read tree.text = .ok d := by
  have hfuel : depthBound d.write.length = depthBound d.write.length - 4 + 4 := by
    unfold depthBound
    omega
  have htakes := takes_durationLiteral d endsDuration_nil (avoids_nil _)
    (depthBound d.write.length - 4) (show Atomicity.loose ≠ .token by decide)
  rw [← hfuel] at htakes
  obtain ⟨_, attempts, hrun, place, nodes, rfl, _⟩ := htakes .first .none
  rw [List.append_nil] at hrun
  exact ⟨_, attempts, hrun, rfl, rfl, Duration.read_write d⟩

/-! ## The characters of a duration -/

theorem colon_not_mem_writeUnit (count : Nat) {unit : Char} (hunit : unit ≠ ':') :
    ':' ∉ writeUnit count unit := by
  intro hmem
  unfold writeUnit at hmem
  split at hmem
  · cases hmem
  · rcases List.mem_append.mp hmem with hmem | hmem
    · exact absurd (isDigit_of_mem_ofNat hmem) (by decide)
    · exact hunit (List.mem_singleton.mp hmem).symm

theorem colon_not_mem_writeClock (n : Nat) : ':' ∉ writeClock n := by
  obtain ⟨_, hnanoseconds, _⟩ := clock_parts n
  intro hmem
  unfold writeClock at hmem
  rw [writeSeconds_eq hnanoseconds] at hmem
  split at hmem
  · cases hmem
  · simp only [List.mem_cons, List.mem_append] at hmem
    rcases hmem with hmark | (hhours | hminutes) | hseconds
    · exact absurd hmark (by decide)
    · exact colon_not_mem_writeUnit _ (by decide) hhours
    · exact colon_not_mem_writeUnit _ (by decide) hminutes
    · split at hseconds
      · cases hseconds
      · rcases List.mem_append.mp hseconds with hmem | hmem
        · rcases PointedDigits.mem_text hmem with hdigit | hpoint
          · exact absurd hdigit (by decide)
          · exact absurd hpoint (by decide)
        · exact absurd (List.mem_singleton.mp hmem) (by decide)

/-- A duration is a sign, a `P` and a text without colons. -/
theorem exists_durationText (d : Duration) :
    ∃ negative text, d.write = minus negative ++ 'P' :: text ∧ ':' ∉ text := by
  unfold Duration.write
  by_cases hzero : d.nanoseconds.natAbs = 0
  · simp only [hzero, if_true]
    exact ⟨false, "T0S".toList, rfl, by decide⟩
  · simp only [hzero, if_false]
    refine ⟨decide (d.nanoseconds < 0), writeUnit (d.nanoseconds.natAbs / day) 'D' ++
      writeClock (d.nanoseconds.natAbs % day), ?_, ?_⟩
    · unfold minus
      simp only [decide_eq_true_eq]
    · intro hmem
      rcases List.mem_append.mp hmem with hdays | hclock
      · exact colon_not_mem_writeUnit _ (by decide) hdays
      · exact colon_not_mem_writeClock _ hclock

/-- A sign before digits begins no duration. -/
theorem refuses_durationLiteral_minus {digits : List Char} (hsome : digits ≠ [])
    (hdigits : ∀ c ∈ digits, c.isDigit = true) (rest : List Char) (fuel : Nat)
    (outer : Atomicity) :
    Refuses (runRule grammar (fuel + 1) outer .durationLiteral) ('-' :: (digits ++ rest)) := by
  refine refuses_rule ?_
  exact refuses_signed (tight_token false) true (not_prefix_digits (by decide) hsome hdigits _ _)
    (refuses_seq_left (refuses_text (not_prefix_digits (by decide) hsome hdigits _ _)))

end DocQuery.Language
