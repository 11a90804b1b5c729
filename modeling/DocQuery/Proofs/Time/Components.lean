import DocQuery.Proofs.Time.Duration

/-!
# Durations as sums of components

A duration is spelled as a sign and numbers with units, those below a day after a `T`. The reader
adds the components up from the left, and every one of them has to be a duration by itself. As none
is negative, the sum never comes back into range once it has left it, so the reader fails on the way
exactly where the whole is too long. There is one more reason to fail: the whole seconds have to fit
a 32-bit word, whatever else there is.

Main names:

* `Component`, `Spelling` — numbers with units, and what is made of them;
* `Spelling.worth` — the exact signed sum, in nanoseconds;
* `Reads` — what the sum becomes after a text, on success and on failure;
* `reads_component`, `Reads.append`, `reads_components` — one component, and any number of them;
* `read_spelling` — a spelling is read as its worth, or not at all.
-/

namespace DocQuery.Time.Duration

open DocQuery.Text DocQuery.Text.Digits

/-! ## Spellings -/

/-- Digits, at least one. -/
structure Count where
  digits : List Char
  digits_ne_nil : digits ≠ []
  isDigit_digits : ∀ c ∈ digits, c.isDigit = true

/-- A number with its unit. Only seconds may have a fraction. -/
inductive Component
  | whole (unit : WholeUnit) (count : Count)
  | seconds (p : PointedDigits)

namespace Component

def amount : Component → List Char
  | whole _ count => count.digits
  | seconds p => p.text

def letter : Component → Char
  | whole unit _ => unit.letter
  | seconds _ => 'S'

/-- Whether the component stands after the `T`. -/
def clock : Component → Bool
  | whole unit _ => unit.clock
  | seconds _ => true

def text (c : Component) : List Char :=
  c.amount ++ [c.letter]

/-- What a component stands for, in nanoseconds. Nine digits of the fraction of a second count. -/
def worth : Component → Nat
  | whole unit count => value count.digits * unit.length
  | seconds p => value p.whole * second + value (nineDigits p.fraction)

/-- Whole seconds fit a 32-bit word; the other numbers may be of any size. -/
def FitsWord : Component → Prop
  | whole _ _ => True
  | seconds p => value p.whole < 2 ^ 32

instance : (c : Component) → Decidable c.FitsWord
  | whole _ _ => inferInstanceAs (Decidable True)
  | seconds p => inferInstanceAs (Decidable (value p.whole < 2 ^ 32))

end Component

/-- The texts of components, one after the other. -/
def texts (components : List Component) : List Char :=
  components.flatMap Component.text

/-- The sum of components. -/
def sumOf : List Component → Nat
  | [] => 0
  | c :: components => c.worth + sumOf components

/-- A sign, components of a day or more, and components below a day. -/
structure Spelling where
  negative : Bool
  date : List Component
  time : List Component
  clock_date : ∀ c ∈ date, c.clock = false
  clock_time : ∀ c ∈ time, c.clock = true

namespace Spelling

def components (s : Spelling) : List Component :=
  s.date ++ s.time

/-- The components, with a `T` before those below a day. -/
def body (s : Spelling) : List Char :=
  texts s.date ++ if s.time.isEmpty then [] else 'T' :: texts s.time

def text (s : Spelling) : List Char :=
  minus s.negative ++ 'P' :: s.body

/-- The signed sum of all components, in nanoseconds. -/
def worth (s : Spelling) : Int :=
  if s.negative then -(sumOf s.components : Int) else sumOf s.components

/-- The sum is within the range of durations, and the whole seconds fit a 32-bit word. -/
def Readable (s : Spelling) : Prop :=
  s.worth.natAbs ≤ longest ∧ ∀ c ∈ s.components, c.FitsWord

instance (s : Spelling) : Decidable s.Readable :=
  inferInstanceAs (Decidable (_ ∧ _))

end Spelling

/-! ## Single components -/

namespace Component

theorem mem_amount {c : Component} {d : Char} (hd : d ∈ c.amount) : d.isDigit = true ∨ d = '.' := by
  cases c with
  | whole unit count => exact Or.inl (count.isDigit_digits d hd)
  | seconds p => exact PointedDigits.mem_text hd

theorem letter_ends (c : Component) :
    c.letter.isDigit = false ∧ c.letter ≠ '.' ∧ c.letter ≠ 'T' := by
  cases c with
  | whole unit count => exact unit.letter_ends
  | seconds p =>
      show 'S'.isDigit = false ∧ 'S' ≠ '.' ∧ 'S' ≠ 'T'
      decide

theorem component?_seconds (amount : List Char) :
    component? amount 'S' true =
      (splitSeconds? amount).bind fun x => ofNanoseconds? (x.1 * second + x.2 : Nat) := rfl

/-- A component by itself: a duration of its worth, if that is one. -/
theorem component?_of_fitsWord {c : Component} (hfits : c.FitsWord) :
    component? c.amount c.letter c.clock = ofNanoseconds? c.worth := by
  cases c with
  | whole unit count =>
      rw [amount, letter, clock, component?_whole, worth,
        number_digits count.digits_ne_nil count.isDigit_digits, Option.bind_some]
  | seconds p =>
      rw [amount, letter, clock, component?_seconds, worth, splitSeconds_pointed hfits,
        Option.bind_some]

theorem component?_of_not_fitsWord {c : Component} (hfits : ¬ c.FitsWord) :
    component? c.amount c.letter c.clock = none := by
  cases c with
  | whole unit count => exact absurd trivial hfits
  | seconds p =>
      have hlarge : ¬ value p.whole < 2 ^ 32 := hfits
      rw [amount, letter, clock, component?_seconds, splitSeconds_text, if_neg hlarge,
        Option.bind_none]

end Component

/-! ## What a text does to the sum -/

/-- A text breaks the sum off, whatever follows it, where it may not be read or has no room. -/
def Breaks (clock : Bool) (text : List Char) (fits : Prop) (count : Nat) : Prop :=
  ∀ (total : Duration) (rest : List Char), 0 ≤ total.nanoseconds →
    (fits → longest < total.nanoseconds + count) →
      ∃ e, sum [] clock total (text ++ rest) = .error e

/-- A text adds so much where it may be read and there is room, and breaks the sum off elsewhere. -/
structure Reads (clock : Bool) (text : List Char) (fits : Prop) (count : Nat) : Prop where
  adds : fits → Adds clock text count
  breaks : Breaks clock text fits count

theorem reads_nil (clock : Bool) : Reads clock [] True 0 := by
  constructor
  · exact fun _ => adds_nil clock
  · intro total rest _ hlong
    have hrange := total.inRange
    have := hlong trivial
    omega

theorem reads_component (c : Component) : Reads c.clock c.text c.FitsWord c.worth := by
  constructor
  · intro hfits
    exact adds_component (fun _ hd => Component.mem_amount hd) c.letter_ends
      (Component.component?_of_fitsWord hfits)
  · intro total rest hpos hlong
    rw [Component.text, sum_component (fun _ hd => Component.mem_amount hd) c.letter_ends]
    by_cases hfits : c.FitsWord
    · rw [Component.component?_of_fitsWord hfits]
      -- Either the component is no duration by itself, or the sum is none.
      cases hpart : ofNanoseconds? c.worth with
      | none => exact ⟨_, rfl⟩
      | some part =>
          have hworth := nanoseconds_of_ofNanoseconds hpart
          have hroom := hlong hfits
          have hsum : total.add? part = none := ofNanoseconds_of_longer (by omega)
          simp only [hsum]
          exact ⟨_, rfl⟩
    · rw [Component.component?_of_not_fitsWord hfits]
      exact ⟨_, rfl⟩

theorem Reads.append {clock : Bool} {text text' : List Char} {fits fits' : Prop}
    {count count' : Nat} (hfirst : Reads clock text fits count)
    (hsecond : Reads clock text' fits' count') :
    Reads clock (text ++ text') (fits ∧ fits') (count + count') := by
  constructor
  · intro hfits
    exact (hfirst.adds hfits.1).append (hsecond.adds hfits.2)
  · intro total rest hpos hlong
    rw [List.append_assoc]
    by_cases hroom : fits ∧ total.nanoseconds + count ≤ longest
    -- The first text is added, and the second one breaks off.
    · obtain ⟨middle, hmiddle, hsum⟩ :=
        hfirst.adds hroom.1 total (text' ++ rest) hpos hroom.2
      rw [hsum]
      refine hsecond.breaks middle rest (by omega) fun hfits' => ?_
      have := hlong ⟨hroom.1, hfits'⟩
      omega
    · refine hfirst.breaks total (text' ++ rest) hpos fun hfits => ?_
      have hlonger : ¬ total.nanoseconds + count ≤ longest := fun hle => hroom ⟨hfits, hle⟩
      omega

theorem reads_components {clock : Bool} {components : List Component}
    (hclock : ∀ c ∈ components, c.clock = clock) :
    Reads clock (texts components) (∀ c ∈ components, c.FitsWord) (sumOf components) := by
  induction components with
  | nil => simpa [texts, sumOf] using reads_nil clock
  | cons c components ih =>
      obtain ⟨hfirst, hothers⟩ := List.forall_mem_cons.mp hclock
      have hreads := (hfirst ▸ reads_component c).append (ih hothers)
      simpa [texts, sumOf] using hreads

/-! ## Whole durations -/

/-- The `T` turns the clock on, and adds nothing. -/
theorem sum_clock (clock : Bool) (total : Duration) (rest : List Char) :
    sum [] clock total ('T' :: rest) = sum [] true total rest := by
  rw [sum]
  simp

theorem sumOf_append (first second : List Component) :
    sumOf (first ++ second) = sumOf first + sumOf second := by
  induction first with
  | nil => simp [sumOf]
  | cons c first ih => simp only [List.cons_append, sumOf, ih, Nat.add_assoc]

/-- The `T` stands only before components, but would make no difference at the end. -/
theorem sum_time (total : Duration) (time : List Component) :
    sum [] false total (if time.isEmpty then [] else 'T' :: texts time) =
      sum [] true total (texts time) := by
  cases time with
  | nil => rfl
  | cons c time => simp [sum_clock]

namespace Spelling

theorem natAbs_worth (s : Spelling) : s.worth.natAbs = sumOf s.components := by
  unfold worth
  split <;> omega

theorem readUnsigned_of_readable {s : Spelling} (hreadable : s.Readable) :
    ∃ d : Duration, d.nanoseconds = sumOf s.components ∧ readUnsigned ('P' :: s.body) = .ok d := by
  obtain ⟨hrange, hfits⟩ := hreadable
  rw [natAbs_worth, components, sumOf_append] at hrange
  rw [components, List.forall_mem_append] at hfits
  have hzero : zero.nanoseconds = 0 := rfl
  obtain ⟨total, htotal, hdate⟩ :=
    (reads_components s.clock_date).adds hfits.1 zero
      (if s.time.isEmpty then [] else 'T' :: texts s.time) (by omega) (by omega)
  obtain ⟨d, hd, htime⟩ :=
    (reads_components s.clock_time).adds hfits.2 total [] (by omega) (by omega)
  refine ⟨d, ?_, ?_⟩
  · rw [components, sumOf_append]
    omega
  · show sum [] false zero s.body = .ok d
    rw [body, hdate, sum_time]
    simpa [sum] using htime

theorem readUnsigned_of_not_readable {s : Spelling} (hreadable : ¬ s.Readable) :
    ∃ e, readUnsigned ('P' :: s.body) = .error e := by
  rw [Readable, natAbs_worth, components, sumOf_append, List.forall_mem_append] at hreadable
  have hzero : zero.nanoseconds = 0 := rfl
  show ∃ e, sum [] false zero s.body = .error e
  rw [body]
  by_cases hdate : (∀ c ∈ s.date, c.FitsWord) ∧ (sumOf s.date : Int) ≤ longest
  · obtain ⟨total, htotal, hsum⟩ := (reads_components s.clock_date).adds hdate.1 zero
      (if s.time.isEmpty then [] else 'T' :: texts s.time) (by omega) (by omega)
    -- What is wrong has to be among the components below a day.
    have hlong : (∀ c ∈ s.time, c.FitsWord) → longest < total.nanoseconds + sumOf s.time := by
      intro hfits
      refine Int.lt_of_not_ge fun hle => hreadable ⟨?_, hdate.1, hfits⟩
      omega
    have hbreaks := (reads_components s.clock_time).breaks total [] (by omega) hlong
    rw [hsum, sum_time]
    simpa using hbreaks
  · refine (reads_components s.clock_date).breaks zero _ (by omega) fun hfits => ?_
    have hlonger : ¬ (sumOf s.date : Int) ≤ longest := fun hle => hdate ⟨hfits, hle⟩
    omega

/-- The sign is taken first, and given to the sum. -/
theorem read_text (s : Spelling) :
    read s.text = (readUnsigned ('P' :: s.body)).map fun d => if s.negative then neg d else d := by
  unfold text minus
  cases s.negative with
  | true => rfl
  | false =>
      show readUnsigned ('P' :: s.body) = _
      cases readUnsigned ('P' :: s.body) <;> rfl

end Spelling

/-- A spelling is read exactly where its sum is in range and its whole seconds fit a 32-bit word,
and then as the sum. -/
theorem read_spelling (s : Spelling) :
    (s.Readable → ∃ d, read s.text = .ok d ∧ d.nanoseconds = s.worth) ∧
      (¬ s.Readable → ∃ e, read s.text = .error e) := by
  constructor
  · intro hreadable
    obtain ⟨d, hd, hread⟩ := Spelling.readUnsigned_of_readable hreadable
    refine ⟨if s.negative then neg d else d, ?_, ?_⟩
    · rw [Spelling.read_text, hread]
      rfl
    · unfold Spelling.worth
      cases s.negative with
      | true => exact congrArg Int.neg hd
      | false => exact hd
  · intro hreadable
    obtain ⟨e, hread⟩ := Spelling.readUnsigned_of_not_readable hreadable
    refine ⟨e, ?_⟩
    rw [Spelling.read_text, hread]
    rfl

end DocQuery.Time.Duration
