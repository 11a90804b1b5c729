import DocQuery.Time.Duration
import DocQuery.Proofs.Text.Pointed

/-!
# Durations read back

A written duration is read component by component: every unit that was written adds what it
stands for, and a unit that was omitted would have added nothing. Sums of components stay within
the longest duration, because they never exceed the length of the whole.

Main names:

* `splitSeconds_pointed` — seconds with a fraction;
* `sum_component` — what a number with its unit does to the sum;
* `Adds` — a text adds a number of nanoseconds;
* `WholeUnit`, `adds_writeUnit` — the units of which there is a whole number;
* `read_write` — reading what was written.
-/

namespace DocQuery.Time.Duration

open DocQuery.Text DocQuery.Text.Digits

/-! ## Numbers -/

theorem number_digits {digits : List Char} (hsome : digits ≠ [])
    (hdigits : ∀ c ∈ digits, c.isDigit = true) : number? digits = some (value digits) := by
  have hall : digits.all Char.isDigit = true := List.all_eq_true.mpr hdigits
  have hempty : digits.isEmpty = false := List.isEmpty_eq_false_iff.mpr hsome
  unfold number?
  rw [hall, hempty]
  rfl

/-- Nine digits of a fraction, with zeros where it has fewer. -/
def nineDigits (fraction : List Char) : List Char :=
  fraction.take 9 ++ List.replicate (9 - (fraction.take 9).length) '0'

theorem length_nineDigits (fraction : List Char) : (nineDigits fraction).length = 9 := by
  unfold nineDigits
  rw [List.length_append, List.length_replicate, List.length_take]
  omega

theorem number_eq_some {digits : List Char} {n : Nat} (hn : number? digits = some n) :
    (∀ c ∈ digits, c.isDigit = true) ∧ n = value digits := by
  unfold number? at hn
  split at hn
  · cases hn
  · rename_i hdigits
    cases hn
    simp only [Bool.or_eq_true, Bool.not_eq_true', not_or, Bool.not_eq_false] at hdigits
    exact ⟨List.all_eq_true.mp hdigits.2, rfl⟩

theorem nanoseconds_lt_of_splitSeconds {text : List Char} {found : Nat × Nat}
    (hfound : splitSeconds? text = some found) : found.2 < second := by
  unfold splitSeconds? at hfound
  obtain ⟨seconds, hseconds, hfound⟩ := Option.bind_eq_some_iff.mp hfound
  obtain ⟨nanoseconds, hnanoseconds, hfound⟩ := Option.bind_eq_some_iff.mp hfound
  split at hfound
  · cases hfound
    obtain ⟨hdigits, rfl⟩ := number_eq_some hnanoseconds
    have hlt : value (nineDigits ((text.dropWhile (· != '.')).drop 1)) < 10 ^ _ :=
      value_lt_pow hdigits
    rw [length_nineDigits] at hlt
    exact hlt
  · cases hfound

theorem splitSeconds_text (p : PointedDigits) :
    splitSeconds? p.text =
      if value p.whole < 2 ^ 32 then some (value p.whole, value (nineDigits p.fraction))
      else none := by
  have hwhole : number? p.whole = some (value p.whole) :=
    number_digits p.whole_ne_nil p.isDigit_whole
  have hfraction : number? (nineDigits p.fraction) = some (value (nineDigits p.fraction)) := by
    refine number_digits ?_ ?_
    · intro hnil
      have hlength := length_nineDigits p.fraction
      rw [hnil] at hlength
      cases hlength
    · intro c hc
      rcases List.mem_append.mp hc with hc | hc
      · exact p.isDigit_fraction c (List.mem_of_mem_take hc)
      · exact isDigit_of_mem_replicate hc
  unfold nineDigits at hfraction ⊢
  unfold splitSeconds?
  simp only [PointedDigits.whole_text, PointedDigits.fraction_text, hwhole, hfraction]
  rfl

theorem splitSeconds_pointed {p : PointedDigits} (hseconds : value p.whole < 2 ^ 32) :
    splitSeconds? p.text = some (value p.whole, value (nineDigits p.fraction)) := by
  rw [splitSeconds_text, if_pos hseconds]

/-- A fraction of so many digits counts in units of its last place. -/
theorem value_nineDigits {fraction : List Char} (hlength : fraction.length ≤ 9) :
    value (nineDigits fraction) = value fraction * 10 ^ (9 - fraction.length) := by
  unfold nineDigits
  rw [List.take_of_length_le hlength, value_append, value_replicate_zero, List.length_replicate,
    Nat.add_zero]

/-- Dropping zeros at the end of nine digits leaves the number of nanoseconds as it is. -/
theorem nineDigits_trimmed {digits : List Char} (hlength : digits.length = 9) :
    nineDigits (digits.reverse.dropWhile (· == '0')).reverse = digits := by
  obtain ⟨zeros, hzeros, hsplit⟩ : ∃ zeros, (∀ c ∈ zeros, c = '0') ∧
      digits = (digits.reverse.dropWhile (· == '0')).reverse ++ zeros := by
    refine ⟨(digits.reverse.takeWhile (· == '0')).reverse, ?_, ?_⟩
    · intro c hc
      have hall := List.all_takeWhile (p := (· == '0')) (l := digits.reverse)
      rw [List.all_eq_true] at hall
      exact eq_of_beq (hall c (List.mem_reverse.mp hc))
    · rw [← List.reverse_append, List.takeWhile_append_dropWhile, List.reverse_reverse]
  generalize (digits.reverse.dropWhile (· == '0')).reverse = fraction at hsplit ⊢
  have hcount : fraction.length + zeros.length = 9 := by
    rw [← List.length_append, ← hsplit]
    exact hlength
  unfold nineDigits
  rw [List.take_of_length_le (by omega), hsplit]
  congr 1
  rw [List.eq_replicate_of_mem hzeros]
  congr 1
  omega

/-! ## Lengths -/

theorem nanoseconds_of_ofNanoseconds {n : Int} {d : Duration} (hd : ofNanoseconds? n = some d) :
    d.nanoseconds = n := by
  unfold ofNanoseconds? at hd
  split at hd
  · cases hd
    rfl
  · cases hd

theorem ofNanoseconds_of_longer {n : Int} (hn : longest < n) : ofNanoseconds? n = none := by
  unfold ofNanoseconds?
  rw [dif_neg (by omega)]

/-! ## Sums of components -/

theorem sum_digits {digits : List Char} (hdigits : ∀ c ∈ digits, c.isDigit = true ∨ c = '.')
    (amount : List Char) (clock : Bool) (total : Duration) (rest : List Char) :
    sum amount clock total (digits ++ rest) = sum (amount ++ digits) clock total rest := by
  induction digits generalizing amount with
  | nil => rw [List.nil_append, List.append_nil]
  | cons c digits ih =>
      have hc : (c.isDigit || c == '.') = true := by
        rcases hdigits c (List.mem_cons_self ..) with hdigit | rfl
        · rw [hdigit]
          rfl
        · rfl
      rw [List.cons_append, sum, if_pos hc, ih fun c' hc' => hdigits c' (List.mem_cons_of_mem _ hc'),
        List.append_assoc]
      rfl

/-- A number with its unit adds what it stands for, if it stands for a duration and there is room
for it. -/
theorem sum_component {amount : List Char} {unit : Char}
    (hamount : ∀ c ∈ amount, c.isDigit = true ∨ c = '.')
    (hunit : unit.isDigit = false ∧ unit ≠ '.' ∧ unit ≠ 'T') (clock : Bool) (total : Duration)
    (rest : List Char) :
    sum [] clock total (amount ++ [unit] ++ rest) =
      match component? amount unit clock with
      | none => .error (.component amount unit)
      | some part =>
        match total.add? part with
        | none => .error .outOfRange
        | some total => sum [] clock total rest := by
  obtain ⟨hdigit, hpoint, hclock⟩ := hunit
  have hletter : ¬ (unit.isDigit || unit == '.') = true := by
    simp [hdigit, hpoint]
  rw [List.append_assoc, sum_digits hamount, List.nil_append, List.singleton_append, sum]
  exact (if_neg hletter).trans (if_neg hclock)

/-- A text adds so many nanoseconds to a total that has room for them, whatever follows it. -/
def Adds (clock : Bool) (text : List Char) (count : Nat) : Prop :=
  ∀ (total : Duration) (rest : List Char), 0 ≤ total.nanoseconds →
    total.nanoseconds + count ≤ longest →
      ∃ total' : Duration, total'.nanoseconds = total.nanoseconds + count ∧
        sum [] clock total (text ++ rest) = sum [] clock total' rest

theorem adds_nil (clock : Bool) : Adds clock [] 0 := by
  intro total rest _ _
  exact ⟨total, (Int.add_zero _).symm, rfl⟩

theorem Adds.append {clock : Bool} {text text' : List Char} {count count' : Nat}
    (hfirst : Adds clock text count) (hsecond : Adds clock text' count') :
    Adds clock (text ++ text') (count + count') := by
  intro total rest hpos hroom
  obtain ⟨middle, hmiddle, hsum⟩ := hfirst total (text' ++ rest) hpos (by omega)
  obtain ⟨last, hlast, hsum'⟩ := hsecond middle rest (by omega) (by omega)
  refine ⟨last, by omega, ?_⟩
  rw [List.append_assoc, hsum, hsum']

/-- A number with its unit adds what the component is worth. -/
theorem adds_component {clock : Bool} {amount : List Char} {unit : Char} {count : Nat}
    (hamount : ∀ c ∈ amount, c.isDigit = true ∨ c = '.')
    (hunit : unit.isDigit = false ∧ unit ≠ '.' ∧ unit ≠ 'T')
    (hcomponent : component? amount unit clock = ofNanoseconds? count) :
    Adds clock (amount ++ [unit]) count := by
  intro total rest hpos hroom
  have hlow : -longest ≤ 0 := by decide
  have hrange : -longest ≤ (count : Int) ∧ (count : Int) ≤ longest := by omega
  have hsum : -longest ≤ total.nanoseconds + count ∧ total.nanoseconds + count ≤ longest := by
    omega
  have hpart : component? amount unit clock = some ⟨count, hrange⟩ := by
    rw [hcomponent]
    unfold ofNanoseconds?
    rw [dif_pos hrange]
  have htotal : total.add? ⟨count, hrange⟩ = some ⟨total.nanoseconds + count, hsum⟩ := by
    unfold add? ofNanoseconds?
    rw [dif_pos hsum]
  refine ⟨⟨total.nanoseconds + count, hsum⟩, rfl, ?_⟩
  rw [sum_component hamount hunit, hpart]
  simp only [htotal]

theorem number_ofNat (n : Nat) : number? (Digits.ofNat n) = some n := by
  rw [number_digits (ofNat_ne_nil n) fun c hc => isDigit_of_mem_ofNat hc, value_ofNat]

/-! ## Units -/

/-- The units of which there is a whole number. -/
inductive WholeUnit
  | week
  | day
  | hour
  | minute
  deriving DecidableEq, Repr

namespace WholeUnit

def letter : WholeUnit → Char
  | week => 'W'
  | day => 'D'
  | hour => 'H'
  | minute => 'M'

/-- Nanoseconds in one of the unit. -/
def length : WholeUnit → Nat
  | week => Duration.week
  | day => Duration.day
  | hour => Duration.hour
  | minute => Duration.minute

/-- Whether the unit stands after the `T`. -/
def clock : WholeUnit → Bool
  | week | day => false
  | hour | minute => true

theorem letter_ends (unit : WholeUnit) :
    unit.letter.isDigit = false ∧ unit.letter ≠ '.' ∧ unit.letter ≠ 'T' := by
  cases unit <;> decide

end WholeUnit

theorem component?_whole (unit : WholeUnit) (amount : List Char) :
    component? amount unit.letter unit.clock =
      (number? amount).bind fun n => ofNanoseconds? (n * unit.length : Nat) := by
  cases unit <;> rfl

theorem adds_writeUnit (unit : WholeUnit) (count : Nat) :
    Adds unit.clock (writeUnit count unit.letter) (count * unit.length) := by
  unfold writeUnit
  split
  · rename_i hzero
    rw [hzero, Nat.zero_mul]
    exact adds_nil unit.clock
  · refine adds_component (fun c hc => Or.inl (isDigit_of_mem_ofNat hc)) unit.letter_ends ?_
    rw [component?_whole, number_ofNat, Option.bind_some]

/-- The digits of seconds with their fraction. -/
def secondsPointed (seconds nanoseconds : Nat) : PointedDigits where
  whole := Digits.ofNat seconds
  fraction := if nanoseconds = 0 then []
    else ((Digits.fixed 10 9 nanoseconds).reverse.dropWhile (· == '0')).reverse
  whole_ne_nil := ofNat_ne_nil seconds
  isDigit_whole := fun _ hc => isDigit_of_mem_ofNat hc
  isDigit_fraction := by
    intro c hc
    split at hc
    · cases hc
    · have hmem := (List.dropWhile_sublist _).mem (List.mem_reverse.mp hc)
      exact isDigit_of_mem_fixed (List.mem_reverse.mp hmem)

theorem value_secondsPointed (seconds : Nat) {nanoseconds : Nat} (hnanoseconds : nanoseconds < second) :
    value (nineDigits (secondsPointed seconds nanoseconds).fraction) = nanoseconds := by
  unfold secondsPointed
  simp only
  split
  · rename_i hzero
    rw [hzero]
    rfl
  · rw [nineDigits_trimmed (length_fixed 10 9 nanoseconds)]
    exact value_fixed_of_lt hnanoseconds

/-- The fraction of a second is not empty, as it has a digit that is not zero. -/
theorem fraction_secondsPointed (seconds : Nat) {nanoseconds : Nat} (hnonzero : nanoseconds ≠ 0)
    (hnanoseconds : nanoseconds < second) :
    (secondsPointed seconds nanoseconds).fraction ≠ [] := by
  intro hnil
  have hvalue := value_secondsPointed seconds hnanoseconds
  rw [hnil] at hvalue
  exact hnonzero hvalue.symm

theorem writeSeconds_eq {seconds nanoseconds : Nat} (hnanoseconds : nanoseconds < second) :
    writeSeconds seconds nanoseconds =
      if seconds = 0 ∧ nanoseconds = 0 then []
      else (secondsPointed seconds nanoseconds).text ++ ['S'] := by
  unfold writeSeconds writeUnit
  by_cases hzero : nanoseconds = 0
  · subst hzero
    rw [if_pos rfl]
    by_cases hseconds : seconds = 0
    · rw [if_pos hseconds, if_pos ⟨hseconds, rfl⟩]
    · rw [if_neg hseconds, if_neg fun hboth => hseconds hboth.1]
      show _ = (Digits.ofNat seconds ++ []) ++ ['S']
      rw [List.append_nil]
  · have hfraction := fraction_secondsPointed seconds hzero hnanoseconds
    rw [if_neg hzero, if_neg fun hboth => hzero hboth.2]
    unfold PointedDigits.text PointedDigits.tail
    rw [if_neg hfraction]
    unfold secondsPointed
    simp only [if_neg hzero]
    rw [List.append_assoc]
    rfl

theorem adds_writeSeconds {seconds nanoseconds : Nat} (hseconds : seconds < 60)
    (hnanoseconds : nanoseconds < second) :
    Adds true (writeSeconds seconds nanoseconds) (seconds * second + nanoseconds) := by
  rw [writeSeconds_eq hnanoseconds]
  split
  · rename_i hzero
    rw [hzero.1, hzero.2]
    exact adds_nil true
  · refine adds_component (fun c hc => PointedDigits.mem_text hc) (by decide) ?_
    have hwhole : value (secondsPointed seconds nanoseconds).whole = seconds :=
      value_ofNat seconds
    have hsplit := splitSeconds_pointed (p := secondsPointed seconds nanoseconds) (by omega)
    rw [hwhole, value_secondsPointed seconds hnanoseconds] at hsplit
    show (splitSeconds? _).bind (fun x => ofNanoseconds? (x.1 * second + x.2 : Nat)) = _
    rw [hsplit, Option.bind_some]

/-! ## Whole durations -/

/-- The hours, minutes and seconds of a length of time make it up. -/
theorem clock_parts (n : Nat) :
    n / second % 60 < 60 ∧ n % second < second ∧
      n / hour * hour + n / minute % 60 * minute + (n / second % 60 * second + n % second) = n := by
  unfold hour minute second
  omega

theorem adds_clock (n : Nat) :
    Adds true (writeUnit (n / hour) 'H' ++ writeUnit (n / minute % 60) 'M' ++
      writeSeconds (n / second % 60) (n % second)) n := by
  obtain ⟨hseconds, hnanoseconds, hsum⟩ := clock_parts n
  have hhours : Adds true (writeUnit (n / hour) 'H') (n / hour * hour) :=
    adds_writeUnit .hour (n / hour)
  have hminutes : Adds true (writeUnit (n / minute % 60) 'M') (n / minute % 60 * minute) :=
    adds_writeUnit .minute (n / minute % 60)
  have hparts := (hhours.append hminutes).append (adds_writeSeconds hseconds hnanoseconds)
  rw [hsum] at hparts
  exact hparts

/-- The text of a duration without its sign adds up to its length. -/
theorem readUnsigned_write {n : Nat} (hn : (n : Int) ≤ longest) :
    ∃ d : Duration, d.nanoseconds = n ∧
      readUnsigned ('P' :: (writeUnit (n / day) 'D' ++ writeClock (n % day))) = .ok d := by
  have hdays : n / day * day + n % day = n := Nat.div_add_mod' n day
  have hzero : zero.nanoseconds = 0 := rfl
  have hadds : Adds false (writeUnit (n / day) 'D') (n / day * day) :=
    adds_writeUnit .day (n / day)
  obtain ⟨total, htotal, hsum⟩ := hadds zero (writeClock (n % day)) (by omega) (by omega)
  show ∃ d : Duration, d.nanoseconds = n ∧
    sum [] false zero (writeUnit (n / day) 'D' ++ writeClock (n % day)) = .ok d
  rw [hsum]
  unfold writeClock
  split
  · rename_i hnone
    refine ⟨total, by omega, rfl⟩
  · obtain ⟨d, hd, hsum'⟩ := adds_clock (n % day) total [] (by omega) (by omega)
    rw [List.append_nil] at hsum'
    refine ⟨d, by omega, ?_⟩
    show sum [] true total _ = .ok d
    rw [hsum']
    rfl

theorem ext_nanoseconds {d d' : Duration} (heq : d.nanoseconds = d'.nanoseconds) : d = d' := by
  cases d
  cases d'
  simp only at heq
  subst heq
  rfl

/-- A written duration reads back. -/
theorem read_write (d : Duration) : read d.write = .ok d := by
  have hrange := d.inRange
  unfold write
  by_cases hzero : d.nanoseconds.natAbs = 0
  · simp only [hzero, if_true]
    have hd : d = zero := ext_nanoseconds (Int.natAbs_eq_zero.mp hzero)
    rw [hd]
    rfl
  · obtain ⟨d', hd', hread⟩ := readUnsigned_write (n := d.nanoseconds.natAbs) (by omega)
    simp only [if_neg hzero]
    -- The sign is read before the parts, and turns what was read.
    by_cases hneg : d.nanoseconds < 0
    · rw [if_pos hneg, List.singleton_append]
      show (readUnsigned _).map neg = .ok d
      rw [hread]
      show Except.ok (neg d') = .ok d
      congr 1
      apply ext_nanoseconds
      show -d'.nanoseconds = d.nanoseconds
      omega
    · rw [if_neg hneg, List.nil_append]
      have hmark : ∀ text, read ('P' :: text) = readUnsigned ('P' :: text) := fun _ => rfl
      rw [hmark, hread]
      congr 1
      apply ext_nanoseconds
      omega

end DocQuery.Time.Duration
