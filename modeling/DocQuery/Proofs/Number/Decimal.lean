import DocQuery.Number.Decimal.Literal
import DocQuery.Proofs.Sequencing
import DocQuery.Proofs.Text.Pointed

/-!
# Decimals read back

The digits of a decimal with the exponent zero after them read back as the decimal, scale
included; only the sign of a zero is dropped. While the digits are read, the number read so far is
never larger than the coefficient, so that no digit is rounded off.

Main names:

* `Decimal.pointed` — the digits of a decimal with its point;
* `Decimal.readBack` — what a decimal becomes;
* `Decimal.read_write` — reading what was written;
* `Decimal.readBack_of_read` — a decimal that was read becomes itself.
-/

namespace DocQuery.Number.Decimal

open Text Text.Digits

/-! ## Digits within bounds -/

theorem readWhole_digits {digits : List Char} {m : Nat}
    (hbound : m * 10 ^ digits.length + value digits < bound) :
    readWhole m digits = .ok (m * 10 ^ digits.length + value digits) := by
  induction digits generalizing m with
  | nil => simp [readWhole]
  | cons c digits ih =>
      have hvalue : m * 10 ^ (c :: digits).length + value (c :: digits) =
          (m * 10 + digitValue c) * 10 ^ digits.length + value digits := by
        rw [value_cons, List.length_cons, Nat.pow_succ, Nat.add_mul, Nat.mul_assoc m 10,
          Nat.mul_comm 10, Nat.add_assoc]
      rw [hvalue] at hbound ⊢
      have hpos : 0 < 10 ^ digits.length := Nat.pow_pos (by decide)
      have hnext : m * 10 + digitValue c < bound := by
        have hle : m * 10 + digitValue c ≤ (m * 10 + digitValue c) * 10 ^ digits.length :=
          Nat.le_mul_of_pos_right _ hpos
        omega
      rw [readWhole, if_pos hnext]
      exact ih hbound

theorem readFraction_digits {digits : List Char} {m s : Nat} (hscale : s + digits.length ≤ 28)
    (hbound : m * 10 ^ digits.length + value digits < bound) :
    readFraction m s digits =
      .ok (m * 10 ^ digits.length + value digits, s + digits.length) := by
  induction digits generalizing m s with
  | nil => simp [readFraction]
  | cons c digits ih =>
      have hvalue : m * 10 ^ (c :: digits).length + value (c :: digits) =
          (m * 10 + digitValue c) * 10 ^ digits.length + value digits := by
        rw [value_cons, List.length_cons, Nat.pow_succ, Nat.add_mul, Nat.mul_assoc m 10,
          Nat.mul_comm 10, Nat.add_assoc]
      rw [List.length_cons] at hscale
      rw [hvalue] at hbound ⊢
      have hpos : 0 < 10 ^ digits.length := Nat.pow_pos (by decide)
      have hnext : m * 10 + digitValue c < bound := by
        have hle : m * 10 + digitValue c ≤ (m * 10 + digitValue c) * 10 ^ digits.length :=
          Nat.le_mul_of_pos_right _ hpos
        omega
      have hroom : s < maxScale := by
        show s < 28
        omega
      rw [readFraction, if_pos ⟨hroom, hnext⟩, ih (by omega) hbound, List.length_cons]
      congr 2
      omega

/-! ## Written decimals -/

/-- The digits of a decimal, with as many after the point as its scale says. -/
def pointed (d : Decimal) : PointedDigits where
  whole := (padded (d.scale + 1) d.coefficient).take
    ((padded (d.scale + 1) d.coefficient).length - d.scale)
  fraction := (padded (d.scale + 1) d.coefficient).drop
    ((padded (d.scale + 1) d.coefficient).length - d.scale)
  whole_ne_nil := by
    have hlength := le_length_padded (d.scale + 1) d.coefficient
    intro hnil
    have hzero := congrArg List.length hnil
    rw [List.length_take, List.length_nil] at hzero
    omega
  isDigit_whole := fun _ hc => isDigit_of_mem_padded (List.mem_of_mem_take hc)
  isDigit_fraction := fun _ hc => isDigit_of_mem_padded (List.mem_of_mem_drop hc)

theorem length_fraction (d : Decimal) : d.pointed.fraction.length = d.scale := by
  have hlength := le_length_padded (d.scale + 1) d.coefficient
  unfold pointed
  rw [List.length_drop]
  omega

theorem value_digits (d : Decimal) :
    value d.pointed.whole * 10 ^ d.pointed.fraction.length + value d.pointed.fraction =
      d.coefficient := by
  rw [← value_append]
  unfold pointed
  rw [List.take_append_drop, value_padded]

theorem write_eq (d : Decimal) : d.write = minus d.negative ++ d.pointed.text := by
  have hempty : d.pointed.fraction = [] ↔ d.scale = 0 := by
    rw [← length_fraction d, List.length_eq_zero_iff]
  unfold write PointedDigits.text PointedDigits.tail
  simp only [hempty]
  rw [List.append_assoc]
  rfl

/-- The decimal that reads back: a zero has no sign. -/
def readBack (d : Decimal) : Decimal :=
  { d with negative := d.negative && d.coefficient != 0 }

theorem equal_readBack (d : Decimal) : d.readBack.equal d = true := by
  have hsigned : d.readBack.signed = d.signed := by
    unfold readBack signed
    by_cases hzero : d.coefficient = 0
    · simp [hzero]
    · simp [hzero]
  unfold equal compareTo atScale
  rw [hsigned]
  have hself : ∀ n : Int, compare n n = Ordering.eq := fun n => Std.ReflCmp.compare_self
  rw [show d.readBack.scale = d.scale from rfl, hself]
  rfl

/-! ## Reading -/

theorem not_mark_of_mem_write {d : Decimal} {c : Char} (hc : c ∈ d.write) :
    (!(c == 'd' || c == 'D')) = true := by
  rw [write_eq, List.mem_append] at hc
  rcases hc with hc | hc
  · unfold minus at hc
    split at hc
    · rw [List.mem_singleton.mp hc]
      rfl
    · cases hc
  · rcases PointedDigits.mem_text hc with hdigit | rfl
    · have hlower : c ≠ 'd' := ne_of_isDigit hdigit rfl
      have hupper : c ≠ 'D' := ne_of_isDigit hdigit rfl
      simp [hlower, hupper]
    · rfl

theorem head_ne_minus {p : PointedDigits} {c : Char} {rest : List Char} (htext : p.text = c :: rest) :
    c ≠ '-' := by
  have hc : c ∈ p.text := htext ▸ List.mem_cons_self ..
  rcases PointedDigits.mem_text hc with hdigit | rfl
  · exact ne_of_isDigit hdigit rfl
  · decide

theorem applyExponent_zero (d : Decimal) :
    applyExponent d.negative d.coefficient d.scale 0 = .ok d.readBack := by
  have hrange : d.coefficient < 2 ^ 96 ∧ d.scale ≤ 28 := ⟨d.coefficient_lt, d.scale_le⟩
  have hmake : make? (d.negative && d.coefficient != 0) d.coefficient d.scale =
      some d.readBack := by
    unfold make?
    rw [dif_pos hrange]
    rfl
  unfold applyExponent
  simp only [Int.lt_irrefl, if_false, Int.toNat_zero, Nat.zero_le, if_true, Nat.sub_zero, hmake]

/-- A written decimal reads back, scale included. -/
theorem read_write (d : Decimal) : read (d.write ++ ['d', '0']) = .ok d.readBack := by
  have hmark : ∀ c ∈ d.write, (!(c == 'd' || c == 'D')) = true := fun _ hc =>
    not_mark_of_mem_write hc
  have hvalue := value_digits d
  have hlt := d.coefficient_lt
  have hwhole : readWhole 0 d.pointed.whole = .ok (value d.pointed.whole) := by
    have hpos : 0 < 10 ^ d.pointed.fraction.length := Nat.pow_pos (by decide)
    have hle : value d.pointed.whole ≤ value d.pointed.whole * 10 ^ d.pointed.fraction.length :=
      Nat.le_mul_of_pos_right _ hpos
    have hbound : 0 * 10 ^ d.pointed.whole.length + value d.pointed.whole < bound := by
      show _ < 2 ^ 96
      omega
    rw [readWhole_digits hbound, Nat.zero_mul, Nat.zero_add]
  have hfraction : readFraction (value d.pointed.whole) 0 d.pointed.fraction =
      .ok (d.coefficient, d.scale) := by
    have hscale : 0 + d.pointed.fraction.length ≤ 28 := by
      rw [length_fraction, Nat.zero_add]
      exact d.scale_le
    rw [readFraction_digits hscale (by rw [hvalue]; exact hlt), hvalue, length_fraction,
      Nat.zero_add]
  -- The mark of the exponent ends the digits, and an exponent of zero moves none of them.
  have hnumber : (d.write ++ ['d', '0']).takeWhile (fun c => !(c == 'd' || c == 'D')) = d.write :=
    takeWhile_until hmark (by decide) ['0']
  have hexponent : (d.write ++ ['d', '0']).dropWhile (fun c => !(c == 'd' || c == 'D')) =
      ['d', '0'] := dropWhile_until hmark (by decide) ['0']
  unfold read
  simp only [hnumber, hexponent]
  rw [write_eq]
  unfold minus
  have happly := applyExponent_zero d
  cases hsign : d.negative with
  | true =>
      rw [hsign] at happly
      simp only [if_true, List.singleton_append]
      rw [PointedDigits.whole_text, PointedDigits.fraction_text, hwhole]
      show (readFraction _ 0 _ >>= fun r => _) = _
      rw [hfraction]
      exact happly
  | false =>
      rw [hsign] at happly
      simp only [Bool.false_eq_true, if_false, List.nil_append]
      split
      · rename_i rest htext
        exact absurd rfl (head_ne_minus htext)
      · rw [PointedDigits.whole_text, PointedDigits.fraction_text, hwhole]
        show (readFraction _ 0 _ >>= fun r => _) = _
        rw [hfraction]
        exact happly


/-! ## Signs -/

theorem readBack_eq_self {d : Decimal} (hd : d.negative = true → d.coefficient ≠ 0) :
    d.readBack = d := by
  have hsign : (d.negative && d.coefficient != 0) = d.negative := by
    cases hnegative : d.negative with
    | false => rfl
    | true => simpa using hd hnegative
  unfold readBack
  rw [hsign]

theorem strip_ne_zero {fuel m s : Nat} (hm : m ≠ 0) : (strip fuel m s).1 ≠ 0 := by
  induction fuel generalizing m s with
  | zero => exact hm
  | succ fuel ih =>
      unfold strip
      split
      · rename_i hzero
        exact ih (by omega)
      · exact hm

theorem eq_of_make {negative : Bool} {m s : Nat} {d : Decimal} (hd : make? negative m s = some d) :
    d.negative = negative ∧ d.coefficient = m := by
  unfold make? at hd
  split at hd
  · cases hd
    exact ⟨rfl, rfl⟩
  · cases hd

theorem readBack_of_make {negative : Bool} {m s : Nat} {d : Decimal}
    (hd : make? (negative && m != 0) m s = some d) : d.readBack = d := by
  obtain ⟨hsign, hcoefficient⟩ := eq_of_make hd
  refine readBack_eq_self fun hnegative => ?_
  rw [hsign, Bool.and_eq_true] at hnegative
  rw [hcoefficient]
  simpa using hnegative.2

theorem readBack_normalize (d : Decimal) : d.normalize.readBack = d.normalize := by
  refine readBack_eq_self fun hnegative => ?_
  unfold normalize at hnegative ⊢
  split
  · rename_i hzero
    rw [if_pos hzero] at hnegative
    cases hnegative
  · rename_i hsome
    have hcoefficient : d.coefficient ≠ 0 := by simpa [isZero] using hsome
    dsimp only
    cases hmake : make? d.negative (strip maxScale d.coefficient d.scale).1
        (strip maxScale d.coefficient d.scale).2 with
    | none => exact hcoefficient
    | some d' =>
        rw [Option.getD_some, (eq_of_make hmake).2]
        exact strip_ne_zero hcoefficient

theorem readBack_of_applyExponent {negative : Bool} {m s : Nat} {e : Int} {d : Decimal}
    (hd : applyExponent negative m s e = .ok d) : d.readBack = d := by
  unfold applyExponent at hd
  dsimp only at hd
  split at hd
  · split at hd
    · cases hd
    · split at hd
      · rename_i hmake
        cases hd
        exact readBack_of_make hmake
      · cases hd
  · split at hd
    · split at hd
      · rename_i hmake
        cases hd
        exact readBack_of_make hmake
      · cases hd
    · split at hd
      · cases hd
      · split at hd
        · cases hd
          exact readBack_normalize _
        · cases hd

/-- A decimal that was read has no sign if it is zero, so that it reads back as itself. -/
theorem readBack_of_read {text : List Char} {d : Decimal} (hd : read text = .ok d) :
    d.readBack = d := by
  unfold read at hd
  dsimp only at hd
  obtain ⟨m, _, hd⟩ := bind_eq_ok hd
  obtain ⟨⟨m', s⟩, _, hd⟩ := bind_eq_ok hd
  obtain ⟨e, _, hd⟩ := bind_eq_ok hd
  exact readBack_of_applyExponent hd

end DocQuery.Number.Decimal
