import DocQuery.Proofs.Language.Numbers
import DocQuery.Proofs.Time.Timestamp
import DocQuery.Value.Literal

/-!
# Dates in a text

A timestamp is written with all of its parts, and the first of the three rules for timestamps
takes it. Each part is a node with a rule of its own, by which it is found again. The digits of a
number are no date, because a date has a `-` or a `T` right after its first four digits.

Main names:

* `takes_dayTimestamp` — a written timestamp;
* `timestampParts_node` — the parts found in its tree;
* `refuses_datedTimestamp` — digits that are no date.
-/

namespace DocQuery.Language

open Grammar Text Text.Digits Time

variable {rest : List Char}

/-! ## Parts of fixed width -/

theorem takes_twoDigits {context : Grammar.Context} (htight : context.Tight) {call : Rule → Runner Rule}
    (n : Nat) (rest : List Char) :
    Takes (Rule.twoDigits.run grammar.blank context call) (Digits.fixed 10 2 n) rest Leafless := by
  have hdigits : ∀ d ∈ digitChar (n / 10 % 10) :: [digitChar (n % 10)], d.isDigit = true := by
    intro d hd
    rw [← Timestamp.fixed_two] at hd
    exact isDigit_of_mem_fixed hd
  have htimes : Takes ((Pattern.times ([digitChar (n % 10)].length + 1) (.one .digit)).run
      grammar.blank context call) (Digits.fixed 10 2 n) rest Leafless :=
    takes_times htight hdigits
  exact htimes

/-- A part of two digits. -/
theorem takes_pair (rule : Rule) (hmode : grammar.mode rule = .token)
    (hbody : grammar.body rule = Rule.twoDigits) (n : Nat) (rest : List Char) (fuel : Nat) :
    Takes (runRule grammar (fuel + 1) .compound rule) (Digits.fixed 10 2 n) rest
      (IsNode rule (Digits.fixed 10 2 n) Leafless) := by
  refine takes_node (by rw [hmode]; decide) (Or.inl (by decide)) ?_
  unfold Grammar.runBody
  rw [hmode, hbody]
  exact takes_twoDigits (tight_token false) n rest

/-- A mark before what another pattern takes. -/
theorem takes_mark {context : Grammar.Context} (htight : context.Tight) {call : Rule → Runner Rule} (c : Char)
    {q : Pattern Rule} {text : List Char} {good : List (Node Rule) → Prop}
    (hq : Takes (q.run grammar.blank context call) text rest good) :
    Takes ((Pattern.seq (.text [c]) q).run grammar.blank context call) (c :: text) rest good := by
  exact takes_seq_tight htight (takes_text [c]) hq leafless_then

/-- A part of two digits before what another pattern takes. -/
theorem takes_part (rule : Rule) (hmode : grammar.mode rule = .token)
    (hbody : grammar.body rule = Rule.twoDigits) (n : Nat) {q : Pattern Rule} {text : List Char}
    {good : List (Node Rule) → Prop} (fuel : Nat)
    (hq : Takes (q.run grammar.blank ⟨.compound, false⟩ (runRule grammar (fuel + 1) .compound)) text
      rest good) :
    Takes ((Pattern.seq (.rule rule) q).run grammar.blank ⟨.compound, false⟩
      (runRule grammar (fuel + 1) .compound)) (Digits.fixed 10 2 n ++ text) rest
      (Then (IsNode rule (Digits.fixed 10 2 n) Leafless) good) :=
  takes_seq_tight (tight_compound false) (takes_call (takes_pair rule hmode hbody n _ fuel)) hq
    then_intro

theorem takes_tsYear {digits : List Char} (hlength : digits.length = 4)
    (hdigits : ∀ c ∈ digits, c.isDigit = true) (rest : List Char) (fuel : Nat) :
    Takes (runRule grammar (fuel + 1) .compound .tsYear) digits rest
      (IsNode .tsYear digits Leafless) := by
  refine takes_node (by decide) (Or.inl (by decide)) ?_
  cases digits with
  | nil => cases hlength
  | cons c digits =>
      have hcount : digits.length + 1 = 4 := hlength
      have htimes : Takes ((Pattern.times (digits.length + 1) (.one .digit)).run grammar.blank
          ⟨.token, false⟩ (runRule grammar fuel .token)) (c :: digits) rest Leafless :=
        takes_times (tight_token false) hdigits
      rw [hcount] at htimes
      exact htimes

theorem refuses_tsYear {digits : List Char} (hlength : digits.length < 4)
    (hdigits : ∀ c ∈ digits, c.isDigit = true) (hrest : Avoids .digit rest) (fuel : Nat)
    (outer : Atomicity) :
    Refuses (runRule grammar (fuel + 1) outer .tsYear) (digits ++ rest) :=
  refuses_rule (refuses_times (tight_token false) hdigits hrest hlength)

/-! ## Digits are no date -/

/-- Digits that are followed by neither a `-` nor a `T`: after four of them stands another digit
or what follows them. -/
theorem refuses_after_year {c : Char} (hc : c = '-' ∨ c = 'T') {digits : List Char}
    (hdigits : ∀ c ∈ digits, c.isDigit = true) (hrest : Avoids .digit rest)
    (hmark : Avoids (.oneOf ['-', 'T']) rest) (q : Pattern Rule) (fuel : Nat) :
    Refuses ((Pattern.seq (.rule .tsYear) (.seq (.text [c]) q)).run grammar.blank
      ⟨.compound, false⟩ (runRule grammar (fuel + 1) .compound)) (digits ++ rest) := by
  have hdigit : c.isDigit = false := by
    rcases hc with rfl | rfl <;> decide
  have hmember : CharClass.contains (.oneOf ['-', 'T']) c = true := by
    rcases hc with rfl | rfl <;> decide
  by_cases hlength : digits.length < 4
  · exact refuses_seq_left (refuses_call (refuses_tsYear hlength hdigits hrest fuel .compound))
  · have hyear : (digits.take 4).length = 4 := by
      rw [List.length_take]
      omega
    have hfour : ∀ d ∈ digits.take 4, d.isDigit = true := fun d hd =>
      hdigits d (List.mem_of_mem_take hd)
    rw [← List.take_append_drop 4 digits, List.append_assoc]
    refine refuses_seq_tight (tight_compound false)
      (takes_call (takes_tsYear hyear hfour _ fuel)) (refuses_seq_left (refuses_text ?_))
    cases hmore : digits.drop 4 with
    | nil => exact hmark.not_prefix hmember []
    | cons d more =>
        have hd : d.isDigit = true :=
          hdigits d (List.mem_of_mem_drop (hmore ▸ List.mem_cons_self ..))
        exact not_prefix_cons (ne_of_isDigit hd hdigit).symm [] _

theorem refuses_datedTimestamp {digits : List Char} (hsome : digits ≠ [])
    (hdigits : ∀ c ∈ digits, c.isDigit = true) (hrest : Avoids .digit rest)
    (hmark : Avoids (.oneOf ['-', 'T']) rest) (fuel : Nat) (outer : Atomicity) :
    Refuses (runRule grammar (fuel + 3) outer .datedTimestamp) (digits ++ rest) := by
  cases digits with
  | nil => exact absurd rfl hsome
  | cons d digits =>
      refine refuses_rule ?_
      refine refuses_firstOf fun q hq => ?_
      simp only [List.mem_cons, List.not_mem_nil, or_false] at hq
      rcases hq with rfl | rfl | rfl
      · exact refuses_call (refuses_rule
          (refuses_after_year (Or.inl rfl) hdigits hrest hmark _ fuel))
      · exact refuses_call (refuses_rule
          (refuses_after_year (Or.inl rfl) hdigits hrest hmark _ fuel))
      · exact refuses_call (refuses_rule
          (refuses_after_year (Or.inr rfl) hdigits hrest hmark _ fuel))

/-! ## The time of day and the zone -/

theorem takes_tsSecond (t : Timestamp) (hrest : Avoids .digit rest) (hpoint : ¬ ['.'] <+: rest)
    (fuel : Nat) :
    Takes (runRule grammar (fuel + 1) .compound .tsSecond) t.seconds.text rest
      (IsNode .tsSecond t.seconds.text Leafless) := by
  refine takes_node (by decide) (Or.inl (by decide)) ?_
  show Takes ((Pattern.seq Rule.twoDigits (.optional (.seq (.text ['.'])
    (.plus (.one .digit))))).run grammar.blank ⟨.token, false⟩ (runRule grammar fuel .token))
    (Digits.fixed 10 2 _ ++ t.seconds.tail) rest Leafless
  refine takes_seq_tight (tight_token false) (takes_twoDigits (tight_token false) _ _) ?_
    leafless_then
  unfold PointedDigits.tail
  split
  · exact takes_optional_none (refuses_seq_left (refuses_text hpoint))
  · rename_i hsome
    exact takes_optional_some (takes_seq_tight (tight_token false) (takes_text ['.'])
      (takes_plus_digit (tight_token false) hsome t.seconds.isDigit_fraction hrest)
      leafless_then)

/-- The time of day has a node for each of its parts. -/
def ClockNodes (hour minute second : List Char) : List (Node Rule) → Prop :=
  Then (IsNode .tsHour hour Leafless)
    (Then (IsNode .tsMinute minute Leafless) (IsNode .tsSecond second Leafless))

theorem takes_tsTime (t : Timestamp) (hour minute : Nat) (hrest : Avoids .digit rest)
    (hpoint : ¬ ['.'] <+: rest) (fuel : Nat) :
    Takes (runRule grammar (fuel + 2) .compound .tsTime)
      (Digits.fixed 10 2 hour ++ (':' :: (Digits.fixed 10 2 minute ++ (':' :: t.seconds.text)))) rest
      (IsNode .tsTime
        (Digits.fixed 10 2 hour ++ (':' :: (Digits.fixed 10 2 minute ++ (':' :: t.seconds.text))))
        (ClockNodes (Digits.fixed 10 2 hour) (Digits.fixed 10 2 minute) t.seconds.text)) := by
  have htight := tight_compound false
  have hsecond : Takes ((Pattern.optional (.seq (.text [':']) (.rule .tsSecond))).run grammar.blank
      ⟨.compound, false⟩ (runRule grammar (fuel + 1) .compound)) (':' :: t.seconds.text) rest
      (IsNode .tsSecond t.seconds.text Leafless) :=
    takes_optional_some
      (takes_mark htight ':' (takes_call (takes_tsSecond t hrest hpoint fuel)))
  refine takes_node (by decide) (Or.inl (by decide)) ?_
  exact takes_part .tsHour rfl rfl hour fuel
    (takes_mark htight ':' (takes_part .tsMinute rfl rfl minute fuel hsecond))

theorem takes_tsZone (t : Timestamp) (rest : List Char) (fuel : Nat) :
    Takes (runRule grammar (fuel + 2) .compound .tsZone) t.zone rest
      (IsNode .tsZone t.zone Leafless) := by
  have htight := tight_token false
  refine takes_node (by decide) (Or.inl (by decide)) ?_
  unfold Timestamp.zone
  split
  · exact takes_choice_left (takes_text ['Z'])
  · unfold Timestamp.writeOffset
    have hsign : (if t.offset < 0 then '-' else '+') = '+' ∨
        (if t.offset < 0 then '-' else '+') = '-' := by
      split
      · exact Or.inr rfl
      · exact Or.inl rfl
    generalize (if t.offset < 0 then '-' else '+') = sign at hsign ⊢
    refine takes_choice_right (refuses_text ?_) ?_
    · refine not_prefix_cons ?_ _ _
      rcases hsign with rfl | rfl <;> decide
    · have hminutes : Takes ((Pattern.seq (.text [':']) Rule.twoDigits).run grammar.blank
          ⟨.token, false⟩ (runRule grammar (fuel + 1) .token))
          (':' :: Digits.fixed 10 2 (t.offset.natAbs % 60)) rest Leafless :=
        takes_seq_tight htight (takes_text [':']) (takes_twoDigits htight _ _)
          leafless_then
      exact takes_seq_tight htight (takes_call (takes_sign hsign _ fuel))
        (takes_seq_tight htight (takes_twoDigits htight _ _) hminutes leafless_then)
        leafless_then

/-! ## Timestamps -/

/-- A timestamp has a node for its year, month and day, one for the time of day, and one for its
zone. -/
def DayNodes (year month day clock zone : List Char) (inner : List (Node Rule) → Prop) :
    List (Node Rule) → Prop :=
  Then (IsNode .tsYear year Leafless) <| Then (IsNode .tsMonth month Leafless) <|
    Then (IsNode .tsDay day Leafless) <| Then (IsNode .tsTime clock inner) <|
      IsNode .tsZone zone Leafless

/-- What follows the seconds is neither a digit nor a point. -/
theorem avoids_zone (t : Timestamp) (rest : List Char) :
    Avoids (.either .digit (.oneOf ['.'])) (t.zone ++ rest) := by
  unfold Timestamp.zone Timestamp.writeOffset
  split
  · exact avoids_cons (by decide) _
  · split
    · exact avoids_cons (by decide) _
    · exact avoids_cons (by decide) _

/-- The text of the time of day. -/
def clockText (t : Timestamp) : List Char :=
  Digits.fixed 10 2 t.parts.hour ++
    (':' :: (Digits.fixed 10 2 t.parts.minute ++ (':' :: t.seconds.text)))

theorem takes_dayTimestamp {t : Timestamp} (ht : t.Plain) (hrest : Avoids Rule.nameChar rest)
    (fuel : Nat) (outer : Atomicity) :
    Takes (runRule grammar (fuel + 3) outer .dayTimestamp) t.write rest
      (IsNode .dayTimestamp t.write
        (DayNodes (Digits.padded 4 t.parts.year) (Digits.fixed 10 2 t.parts.month)
          (Digits.fixed 10 2 t.parts.day) (clockText t) t.zone
          (ClockNodes (Digits.fixed 10 2 t.parts.hour) (Digits.fixed 10 2 t.parts.minute)
            t.seconds.text))) := by
  have htight := tight_compound false
  have hzone := avoids_zone t rest
  have hyear : t.parts.year < 10 ^ 4 := by
    have hnonneg := ht.year_nonneg
    have hle := ht.year_le
    show t.date.year.natAbs < 10000
    omega
  -- From the end of the text to its beginning.
  have hend : Takes ((Pattern.seq (.optional (.rule .tsZone)) Rule.wordEnd).run grammar.blank
      ⟨.compound, false⟩ (runRule grammar (fuel + 2) .compound)) (t.zone ++ []) rest
      (IsNode .tsZone t.zone Leafless) := by
    exact takes_seq_tight htight (takes_optional_some (takes_call (takes_tsZone t _ fuel)))
      (takes_wordEnd hrest) then_leafless
  rw [List.append_nil] at hend
  have hclock : Takes ((Pattern.optional (.seq (.text ['T']) (.optional (.rule .tsTime)))).run
      grammar.blank ⟨.compound, false⟩ (runRule grammar (fuel + 2) .compound))
      ('T' :: clockText t) (t.zone ++ rest) (IsNode .tsTime (clockText t)
        (ClockNodes (Digits.fixed 10 2 t.parts.hour) (Digits.fixed 10 2 t.parts.minute)
          t.seconds.text)) :=
    takes_optional_some (takes_mark htight 'T' (takes_optional_some (takes_call
      (takes_tsTime t t.parts.hour t.parts.minute hzone.left
        (hzone.right.not_prefix (by decide) []) fuel))))
  have hday := takes_part .tsDay rfl rfl t.parts.day (fuel + 1)
    (takes_seq_tight htight hclock hend then_intro)
  have hmonth := takes_part .tsMonth rfl rfl t.parts.month (fuel + 1) (takes_mark htight '-' hday)
  have hwhole := takes_seq_tight htight (takes_call (takes_tsYear
    (length_padded_eq (by decide) hyear) (fun c hc => isDigit_of_mem_padded hc) _ (fuel + 1)))
    (takes_mark htight '-' hmonth) then_intro
  have htext : t.write = Digits.padded 4 t.parts.year ++ '-' :: (Digits.fixed 10 2 t.parts.month ++
      '-' :: (Digits.fixed 10 2 t.parts.day ++ ('T' :: clockText t ++ t.zone))) := by
    rw [Timestamp.write_eq ht]
    simp only [clockText, List.append_assoc, List.cons_append]
  refine takes_node (by decide) (Or.inr (Or.inl rfl)) ?_
  rw [htext]
  exact hwhole

/-- The parts are found in the tree of a timestamp. -/
theorem timestampParts_node {t : Timestamp} {text : List Char} {place : Place}
    {children : List (Node Rule)}
    (hnodes : DayNodes (Digits.padded 4 t.parts.year) (Digits.fixed 10 2 t.parts.month)
      (Digits.fixed 10 2 t.parts.day) (clockText t) t.zone
      (ClockNodes (Digits.fixed 10 2 t.parts.hour) (Digits.fixed 10 2 t.parts.minute)
        t.seconds.text) children) :
    Scalar.timestampParts (.mk .dayTimestamp text place children) = t.parts := by
  obtain ⟨_, _, rfl, ⟨_, _, rfl, rfl⟩, _, _, rfl, ⟨_, _, rfl, rfl⟩, _, _, rfl, ⟨_, _, rfl, rfl⟩, _, _,
    rfl, ⟨_, _, rfl, hclock⟩, ⟨_, _, rfl, rfl⟩⟩ := hnodes
  obtain ⟨_, _, rfl, ⟨_, _, rfl, rfl⟩, _, _, rfl, ⟨_, _, rfl, rfl⟩, ⟨_, _, rfl, rfl⟩⟩ := hclock
  obtain ⟨hmonth, hday⟩ := Calendar.dateOf_le (t.written / Duration.day)
  have hhour := Timestamp.hour_lt t
  have hminute := Timestamp.minute_lt t
  have hmonth : t.parts.month < 10 ^ 2 := by
    show t.date.month < 100
    exact Nat.lt_of_le_of_lt hmonth (by decide)
  have hday : t.parts.day < 10 ^ 2 := by
    show t.date.day < 100
    exact Nat.lt_of_le_of_lt hday (by decide)
  have hparts : ∀ year month day hour minute : Nat,
      year = t.parts.year → month = t.parts.month → day = t.parts.day → hour = t.parts.hour →
      minute = t.parts.minute →
      (⟨year, month, day, hour, minute, some t.seconds.text, some t.zone⟩ : Timestamp.Parts) =
        t.parts := by
    rintro _ _ _ _ _ rfl rfl rfl rfl rfl
    rfl
  exact hparts _ _ _ _ _ (value_padded 4 _) (value_fixed_of_lt hmonth) (value_fixed_of_lt hday)
    (value_fixed_of_lt (by omega)) (value_fixed_of_lt (by omega))

end DocQuery.Language
