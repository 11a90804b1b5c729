import DocQuery.Proofs.Text.Digits

/-!
# Signs, fixed widths and points

Numbers are written with a sign, with zeros in front, or with a point among their digits. This
file says what such texts denote and how a reader that looks for the point cuts them.

Main names:

* `minus` — the sign of a number;
* `value_fixed`, `value_padded` — digits of a certain width;
* `PointedDigits` — digits with a fraction, which may be missing;
* `PointedDigits.whole_text`, `PointedDigits.fraction_text` — what a reader finds before and after the point.
-/

namespace DocQuery.Text.Digits

/-- The sign of a number, where there is one. -/
def minus (negative : Bool) : List Char :=
  if negative then ['-'] else []

theorem ofInt_eq (n : Int) : ofInt n = minus (decide (n < 0)) ++ ofNat n.natAbs := by
  unfold ofInt minus
  by_cases hneg : n < 0
  · rw [if_pos hneg, if_pos (decide_eq_true hneg)]
    rfl
  · rw [if_neg hneg, if_neg (by simp [hneg])]
    rfl

/-! ## Zeros in front -/

theorem value_replicate_zero (count : Nat) : value (List.replicate count '0') = 0 := by
  induction count with
  | zero => rfl
  | succ count ih =>
      rw [List.replicate_succ, value_cons, ih]
      show (0 : Nat) * _ + 0 = 0
      omega

theorem isDigit_of_mem_replicate {count : Nat} {c : Char} (hc : c ∈ List.replicate count '0') :
    c.isDigit = true := by
  rw [List.eq_of_mem_replicate hc]
  rfl

theorem value_padded (width n : Nat) : value (padded width n) = n := by
  unfold padded
  rw [value_append, value_replicate_zero, value_ofNat, Nat.zero_mul, Nat.zero_add]

theorem isDigit_of_mem_padded {width n : Nat} {c : Char} (hc : c ∈ padded width n) :
    c.isDigit = true := by
  unfold padded at hc
  rcases List.mem_append.mp hc with hc | hc
  · exact isDigit_of_mem_replicate hc
  · exact isDigit_of_mem_ofNat hc

theorem le_length_padded (width n : Nat) : width ≤ (padded width n).length := by
  unfold padded
  rw [List.length_append, List.length_replicate]
  omega

/-- A number written without zeros in front has no more digits than it needs. -/
theorem length_ofNat_le {width n : Nat} (hwidth : 0 < width) (hn : n < 10 ^ width) :
    (ofNat n).length ≤ width := by
  by_cases hzero : n = 0
  · rw [hzero, ofNat_zero]
    exact hwidth
  cases hdigits : ofNat n with
  | nil => exact absurd hdigits (ofNat_ne_nil n)
  | cons c digits =>
      have hc : c.isDigit = true := isDigit_of_mem_ofNat (hdigits ▸ List.mem_cons_self ..)
      have hhead : digitValue c ≠ 0 := by
        intro hvalue
        simp only [Char.isDigit, Bool.and_eq_true, decide_eq_true_eq] at hc
        have hlow : 48 ≤ c.toNat := hc.1
        have hcode : c.toNat - 48 = 0 := hvalue
        have hchar : c = '0' := by
          rw [← Char.ofNat_toNat c, show c.toNat = 48 by omega]
        exact head_ofNat_ne_zero hzero (hchar ▸ hdigits)
      -- The first digit alone is worth ten to the number of the others.
      have hvalue := value_ofNat n
      rw [hdigits, value_cons] at hvalue
      have hpow : 10 ^ digits.length ≤ n := by
        calc
          10 ^ digits.length ≤ digitValue c * 10 ^ digits.length :=
            Nat.le_mul_of_pos_left _ (Nat.pos_of_ne_zero hhead)
          _ ≤ n := by omega
      have hlt : digits.length < width :=
        (Nat.pow_lt_pow_iff_right (by decide : 1 < 10)).mp (Nat.lt_of_le_of_lt hpow hn)
      exact hlt

theorem length_padded_eq {width n : Nat} (hwidth : 0 < width) (hn : n < 10 ^ width) :
    (padded width n).length = width := by
  have hlength := length_ofNat_le hwidth hn
  unfold padded
  rw [List.length_append, List.length_replicate]
  omega

/-! ## Fixed widths -/

@[simp] theorem length_fixed (base width n : Nat) : (fixed base width n).length = width := by
  induction width generalizing n with
  | zero => rfl
  | succ width ih => rw [fixed, List.length_append, ih, List.length_singleton]

theorem value_fixed (width n : Nat) : value (fixed 10 width n) = n % 10 ^ width := by
  induction width generalizing n with
  | zero => rw [Nat.pow_zero, Nat.mod_one]; rfl
  | succ width ih =>
      have hd : n % 10 < 10 := Nat.mod_lt n (by decide)
      rw [fixed, value_append, ih, show value [digitChar (n % 10)] = n % 10 by
        simp [value, digitValue_digitChar hd], List.length_singleton, Nat.pow_one,
        Nat.pow_succ, Nat.mul_comm (10 ^ width) 10, Nat.mod_mul]
      omega

theorem value_fixed_of_lt {width n : Nat} (hn : n < 10 ^ width) :
    value (fixed 10 width n) = n := by
  rw [value_fixed, Nat.mod_eq_of_lt hn]

theorem isDigit_of_mem_fixed {width n : Nat} {c : Char} (hc : c ∈ fixed 10 width n) :
    c.isDigit = true := by
  induction width generalizing n with
  | zero => cases hc
  | succ width ih =>
      rw [fixed, List.mem_append, List.mem_singleton] at hc
      rcases hc with hc | rfl
      · exact ih hc
      · exact isDigit_digitChar (Nat.mod_lt n (by decide))

/-! ## Cutting a text at a character -/

theorem takeWhile_until {p : Char → Bool} {before : List Char} {c : Char}
    (hbefore : ∀ d ∈ before, p d = true) (hc : p c = false) (after : List Char) :
    (before ++ c :: after).takeWhile p = before := by
  rw [List.takeWhile_append_of_pos hbefore, List.takeWhile_cons_of_neg (by simp [hc]),
    List.append_nil]

theorem dropWhile_until {p : Char → Bool} {before : List Char} {c : Char}
    (hbefore : ∀ d ∈ before, p d = true) (hc : p c = false) (after : List Char) :
    (before ++ c :: after).dropWhile p = c :: after := by
  rw [List.dropWhile_append_of_pos hbefore, List.dropWhile_cons_of_neg (by simp [hc])]

theorem takeWhile_all {p : Char → Bool} {text : List Char} (htext : ∀ d ∈ text, p d = true) :
    text.takeWhile p = text := by
  have happend : (text ++ []).takeWhile p = text ++ [].takeWhile p :=
    List.takeWhile_append_of_pos htext
  simpa using happend

theorem dropWhile_all {p : Char → Bool} {text : List Char} (htext : ∀ d ∈ text, p d = true) :
    text.dropWhile p = [] := by
  have happend : (text ++ []).dropWhile p = [].dropWhile p := List.dropWhile_append_of_pos htext
  simpa using happend

theorem ne_of_isDigit {c d : Char} (hc : c.isDigit = true) (hd : d.isDigit = false) : c ≠ d := by
  rintro rfl
  rw [hc] at hd
  cases hd

/-! ## Points -/

/-- Digits with a fraction; without a fraction there is no point. -/
structure PointedDigits where
  whole : List Char
  fraction : List Char
  whole_ne_nil : whole ≠ []
  isDigit_whole : ∀ c ∈ whole, c.isDigit = true
  isDigit_fraction : ∀ c ∈ fraction, c.isDigit = true

namespace PointedDigits

/-- The point with what follows it. -/
def tail (p : PointedDigits) : List Char :=
  if p.fraction = [] then [] else '.' :: p.fraction

/-- How the number is written. -/
def text (p : PointedDigits) : List Char :=
  p.whole ++ p.tail

/-- All digits, as if there were no point. -/
def digits (p : PointedDigits) : List Char :=
  p.whole ++ p.fraction

theorem ne_point {c : Char} (hc : c.isDigit = true) : (c != '.') = true :=
  bne_iff_ne.mpr (ne_of_isDigit hc rfl)

/-- What stands before the point. -/
theorem whole_text (p : PointedDigits) : p.text.takeWhile (· != '.') = p.whole := by
  have hwhole : ∀ c ∈ p.whole, (c != '.') = true := fun c hc => ne_point (p.isDigit_whole c hc)
  unfold text tail
  split
  · rw [List.append_nil]
    exact takeWhile_all hwhole
  · exact takeWhile_until hwhole rfl p.fraction

/-- What stands after the point. -/
theorem fraction_text (p : PointedDigits) : (p.text.dropWhile (· != '.')).drop 1 = p.fraction := by
  have hwhole : ∀ c ∈ p.whole, (c != '.') = true := fun c hc => ne_point (p.isDigit_whole c hc)
  unfold text tail
  split
  · rename_i hnone
    rw [List.append_nil, dropWhile_all hwhole, hnone]
    rfl
  · rw [dropWhile_until hwhole rfl p.fraction]
    rfl

theorem mem_text {p : PointedDigits} {c : Char} (hc : c ∈ p.text) : c.isDigit = true ∨ c = '.' := by
  unfold text tail at hc
  rcases List.mem_append.mp hc with hc | hc
  · exact Or.inl (p.isDigit_whole c hc)
  · split at hc
    · cases hc
    · rcases List.mem_cons.mp hc with rfl | hc
      · exact Or.inr rfl
      · exact Or.inl (p.isDigit_fraction c hc)

theorem text_ne_nil (p : PointedDigits) : p.text ≠ [] := by
  unfold text
  exact List.append_ne_nil_of_left_ne_nil p.whole_ne_nil _

/-- The digits of a whole number. -/
def ofNat (n : Nat) : PointedDigits where
  whole := Digits.ofNat n
  fraction := []
  whole_ne_nil := ofNat_ne_nil n
  isDigit_whole := fun _ hc => isDigit_of_mem_ofNat hc
  isDigit_fraction := fun _ hc => absurd hc List.not_mem_nil

@[simp] theorem whole_ofNat (n : Nat) : (ofNat n).whole = Digits.ofNat n := rfl

@[simp] theorem text_ofNat (n : Nat) : (ofNat n).text = Digits.ofNat n := List.append_nil _

@[simp] theorem digits_ofNat (n : Nat) : (ofNat n).digits = Digits.ofNat n := List.append_nil _

end PointedDigits

end DocQuery.Text.Digits
