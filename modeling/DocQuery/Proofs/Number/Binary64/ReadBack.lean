import DocQuery.Number.Binary64.Literal
import DocQuery.Number.Binary64.Style
import DocQuery.Proofs.Number.Binary64.Nearest
import DocQuery.Proofs.Text.Pointed

/-!
# Double precision numbers read back

A finite number is written as a literal: a sign, digits with a point, and a power of ten where the
number is large or small. Whatever the layout, the literal spells the fewest digits that were
found for the number, and so reads as the number.

Main names:

* `Literal` — the literals that are written;
* `Literal.read_text` — what a literal is read as;
* `exists_literal` — every finite number is written as a literal that reads back.
-/

namespace DocQuery.Number.Binary64

open Text Text.Digits

/-- A literal: a sign, digits with a point and, after an `e`, a power of ten. -/
structure Literal where
  negative : Bool
  pointed : PointedDigits
  power : Option Int

namespace Literal

/-- The power of ten with its mark. -/
def mark (l : Literal) : List Char :=
  match l.power with
  | none => []
  | some k => 'e' :: Digits.ofInt k

def text (l : Literal) : List Char :=
  minus l.negative ++ (l.pointed.text ++ l.mark)

/-- The decimal number that a literal spells, without its sign. -/
def spelt (l : Literal) : Scientific :=
  ⟨value l.pointed.digits, l.power.getD 0 - l.pointed.fraction.length⟩

/-- There is a point or a power of ten, so that the literal is no int. -/
def Marked (l : Literal) : Prop :=
  l.pointed.fraction ≠ [] ∨ l.power.isSome = true

/-! ## Reading -/

theorem head_pointed {p : PointedDigits} (rest : List Char) :
    ∃ c text, p.text ++ rest = c :: text ∧ c ≠ '-' := by
  cases htext : p.text with
  | nil => exact absurd htext p.text_ne_nil
  | cons c text =>
      refine ⟨c, text ++ rest, rfl, ?_⟩
      have hc : c ∈ p.text := htext ▸ List.mem_cons_self ..
      rcases PointedDigits.mem_text hc with hdigit | rfl
      · exact ne_of_isDigit hdigit rfl
      · decide

theorem readExponent_ofInt (k : Int) : readExponent (Digits.ofInt k) = k := by
  unfold Digits.ofInt
  split
  · rename_i hneg
    show -(value (ofNat k.natAbs) : Int) = k
    rw [value_ofNat]
    omega
  · cases hdigits : ofNat k.natAbs with
    | nil => exact absurd hdigits (ofNat_ne_nil _)
    | cons c digits =>
        have hc : c.isDigit = true := isDigit_of_mem_ofNat (hdigits ▸ List.mem_cons_self ..)
        -- Without a sign the exponent is read as plain digits.
        have hminus : c ≠ '-' := ne_of_isDigit hc rfl
        have hplus : c ≠ '+' := ne_of_isDigit hc rfl
        have hvalue : readExponent (c :: digits) = (value (c :: digits) : Int) := by
          rw [readExponent]
          · intro rest heq
            exact hminus (List.cons.inj heq).1
          · intro rest heq
            exact hplus (List.cons.inj heq).1
        rw [hvalue, ← hdigits, value_ofNat]
        omega

theorem not_mark {p : PointedDigits} {c : Char} (hc : c ∈ p.text) :
    (!(c == 'e' || c == 'E')) = true := by
  rcases PointedDigits.mem_text hc with hdigit | rfl
  · have hlower : c ≠ 'e' := ne_of_isDigit hdigit rfl
    have hupper : c ≠ 'E' := ne_of_isDigit hdigit rfl
    simp [hlower, hupper]
  · rfl

/-- The number before the mark. -/
theorem number_text (l : Literal) :
    (l.pointed.text ++ l.mark).takeWhile (fun c => !(c == 'e' || c == 'E')) = l.pointed.text := by
  have hnumber : ∀ c ∈ l.pointed.text, (!(c == 'e' || c == 'E')) = true := fun _ hc => not_mark hc
  unfold mark
  cases l.power with
  | none =>
      rw [List.append_nil]
      exact takeWhile_all hnumber
  | some k => exact takeWhile_until hnumber (by decide) (Digits.ofInt k)

/-- The power of ten after the mark. -/
theorem power_text (l : Literal) :
    readExponent (((l.pointed.text ++ l.mark).dropWhile
      (fun c => !(c == 'e' || c == 'E'))).drop 1) = l.power.getD 0 := by
  have hnumber : ∀ c ∈ l.pointed.text, (!(c == 'e' || c == 'E')) = true := fun _ hc => not_mark hc
  unfold mark
  cases l.power with
  | none =>
      rw [List.append_nil, dropWhile_all hnumber]
      rfl
  | some k =>
      have hmark : (l.pointed.text ++ 'e' :: Digits.ofInt k).dropWhile (fun c => !(c == 'e' || c == 'E')) =
          'e' :: Digits.ofInt k := dropWhile_until hnumber (by decide) (Digits.ofInt k)
      simp only [hmark, List.drop_one, List.tail_cons]
      exact readExponent_ofInt k

theorem read_text (l : Literal) :
    read l.text = ofScientific l.negative l.spelt.digits l.spelt.exponent := by
  unfold read text minus
  cases l.negative with
  | true =>
      simp only [if_true, List.singleton_append, number_text, power_text, PointedDigits.whole_text,
        PointedDigits.fraction_text]
      rfl
  | false =>
      obtain ⟨c, rest, htext, hc⟩ := head_pointed (p := l.pointed) l.mark
      simp only [Bool.false_eq_true, if_false, List.nil_append]
      split
      · rename_i rest' heq
        rw [htext] at heq
        exact absurd (List.cons.inj heq).1 hc
      · rw [number_text, power_text, PointedDigits.whole_text, PointedDigits.fraction_text]
        rfl

end Literal

/-! ## Layouts -/

/-- Zeros that are dropped from digits are powers of ten. -/
theorem dropZeros_eq (fuel n k : Nat) :
    ∃ m count, dropZeros fuel n k = (m, k + count) ∧ m * 10 ^ count = n := by
  induction fuel generalizing n k with
  | zero => exact ⟨n, 0, rfl, Nat.mul_one n⟩
  | succ fuel ih =>
      unfold dropZeros
      split
      · rename_i hzero
        obtain ⟨m, count, hdrop, hvalue⟩ := ih (n / 10) (k + 1)
        refine ⟨m, count + 1, ?_, ?_⟩
        · rw [hdrop, Nat.add_right_comm, Nat.add_assoc]
        · rw [Nat.pow_succ, ← Nat.mul_assoc, hvalue]
          omega
      · exact ⟨n, 0, rfl, Nat.mul_one n⟩

section Positional

variable {digits : List Char} {exponent : Int}

/-- The positional layout of digits is digits with a point, and they spell the same number. -/
def PositionalAs (digits : List Char) (exponent : Int) (p : PointedDigits) : Prop :=
  positional true digits exponent = p.text ∧ p.fraction ≠ [] ∧
    Scientific.Same ⟨value digits, exponent⟩ ⟨value p.digits, -p.fraction.length⟩

/-- Zeros are filled in before the point, and one is written behind it. -/
theorem exists_positional_whole (hsome : digits ≠ []) (hdigits : ∀ c ∈ digits, c.isDigit = true)
    (hwhole : 0 ≤ exponent) : ∃ p, PositionalAs digits exponent p := by
  refine ⟨⟨digits ++ List.replicate exponent.toNat '0', ['0'], ?_, ?_, ?_⟩, ?_, ?_, ?_⟩
  · exact List.append_ne_nil_of_left_ne_nil hsome _
  · intro c hc
    rcases List.mem_append.mp hc with hc | hc
    · exact hdigits c hc
    · exact isDigit_of_mem_replicate hc
  · intro c hc
    rw [List.mem_singleton.mp hc]
    rfl
  · unfold positional
    rw [if_pos hwhole]
    rfl
  · exact List.cons_ne_nil _ _
  · have hvalue : value ((digits ++ List.replicate exponent.toNat '0') ++ ['0']) =
        value digits * 10 ^ (exponent.toNat + 1) := by
      rw [List.append_assoc, ← List.replicate_succ', value_append, value_replicate_zero,
        List.length_replicate, Nat.add_zero]
    have hshift := Scientific.same_shift (value digits) (exponent.toNat + 1) (-1)
    have hsum : (-1 : Int) + (exponent.toNat + 1 : Nat) = exponent := by omega
    rw [hsum] at hshift
    unfold PointedDigits.digits
    rw [hvalue]
    exact hshift.symm

/-- The point stands among the digits. -/
theorem exists_positional_inside (hdigits : ∀ c ∈ digits, c.isDigit = true) (hpart : exponent < 0)
    (hinside : (-exponent).toNat < digits.length) : ∃ p, PositionalAs digits exponent p := by
  have hfraction : digits.drop (digits.length - (-exponent).toNat) ≠ [] := by
    intro hnil
    have hzero := congrArg List.length hnil
    rw [List.length_drop, List.length_nil] at hzero
    omega
  refine ⟨⟨digits.take (digits.length - (-exponent).toNat),
    digits.drop (digits.length - (-exponent).toNat), ?_, ?_, ?_⟩, ?_, hfraction, ?_⟩
  · intro hnil
    have hzero := congrArg List.length hnil
    rw [List.length_take, List.length_nil] at hzero
    omega
  · exact fun c hc => hdigits c (List.mem_of_mem_take hc)
  · exact fun c hc => hdigits c (List.mem_of_mem_drop hc)
  · unfold positional PointedDigits.text PointedDigits.tail
    rw [if_neg (Int.not_le.mpr hpart)]
    simp only [if_pos hinside, if_neg hfraction]
  · have hexponent : -((digits.drop (digits.length - (-exponent).toNat)).length : Int) =
        exponent := by
      rw [List.length_drop]
      omega
    unfold PointedDigits.digits
    simp only [List.take_append_drop, hexponent]
    exact Scientific.Same.refl _

/-- There are too few digits, and zeros are filled in behind the point. -/
theorem exists_positional_behind (hsome : digits ≠ []) (hdigits : ∀ c ∈ digits, c.isDigit = true)
    (hpart : exponent < 0) (hbehind : ¬(-exponent).toNat < digits.length) :
    ∃ p, PositionalAs digits exponent p := by
  have hfraction : List.replicate ((-exponent).toNat - digits.length) '0' ++ digits ≠ [] :=
    List.append_ne_nil_of_right_ne_nil _ hsome
  refine ⟨⟨['0'], List.replicate ((-exponent).toNat - digits.length) '0' ++ digits, ?_, ?_, ?_⟩,
    ?_, hfraction, ?_⟩
  · exact List.cons_ne_nil _ _
  · intro c hc
    rw [List.mem_singleton.mp hc]
    rfl
  · intro c hc
    rcases List.mem_append.mp hc with hc | hc
    · exact isDigit_of_mem_replicate hc
    · exact hdigits c hc
  · unfold positional PointedDigits.text PointedDigits.tail
    rw [if_neg (Int.not_le.mpr hpart)]
    simp only [if_neg hbehind, if_neg hfraction]
    rfl
  · have hvalue : value (['0'] ++ (List.replicate ((-exponent).toNat - digits.length) '0' ++
        digits)) = value digits := by
      rw [value_append, value_append, value_replicate_zero]
      show (0 : Nat) * _ + (0 * _ + _) = _
      omega
    have hexponent : -((List.replicate ((-exponent).toNat - digits.length) '0' ++
        digits).length : Int) = exponent := by
      rw [List.length_append, List.length_replicate]
      omega
    unfold PointedDigits.digits
    simp only [hvalue, hexponent]
    exact Scientific.Same.refl _

/-- Positional digits have a point, and spell the same number. -/
theorem exists_positional (hsome : digits ≠ []) (hdigits : ∀ c ∈ digits, c.isDigit = true)
    (exponent : Int) : ∃ p, PositionalAs digits exponent p := by
  rcases Int.lt_or_le exponent 0 with hpart | hwhole
  · by_cases hinside : (-exponent).toNat < digits.length
    · exact exists_positional_inside hdigits hpart hinside
    · exact exists_positional_behind hsome hdigits hpart hinside
  · exact exists_positional_whole hsome hdigits hwhole

end Positional

/-- One digit before the point and a power of ten spell the same number. -/
theorem exists_scientific {digits : List Char} (hsome : digits ≠ [])
    (hdigits : ∀ c ∈ digits, c.isDigit = true) (leading : Int) :
    ∃ p : PointedDigits, scientific false digits leading = p.text ++ 'e' :: Digits.ofInt leading ∧
      value p.digits = value digits ∧ p.fraction.length + 1 = digits.length := by
  cases digits with
  | nil => exact absurd rfl hsome
  | cons d rest =>
      refine ⟨⟨[d], rest, List.cons_ne_nil _ _, ?_, ?_⟩, ?_, rfl, rfl⟩
      · intro c hc
        rw [List.mem_singleton.mp hc]
        exact hdigits d (List.mem_cons_self ..)
      · exact fun c hc => hdigits c (List.mem_cons_of_mem _ hc)
      · cases rest with
        | nil => rfl
        | cons d' rest => rfl

/-- Digits are written as a literal that spells them. -/
theorem exists_literal_of_digits (negative : Bool) (shown : Scientific) :
    ∃ l : Literal, l.negative = negative ∧ l.pointed.text ++ l.mark =
      Style.value.writeDigits shown ∧ l.Marked ∧
        ∀ i : Interval, i.holds shown = true → i.holds l.spelt = true := by
  obtain ⟨n, zeros, hdrop, hn⟩ := dropZeros_eq (Digits.count shown.digits) shown.digits 0
  rw [Nat.zero_add] at hdrop
  have hshown : ∀ i : Interval, i.holds shown = true →
      i.holds ⟨n, shown.exponent + zeros⟩ = true := by
    intro i hholds
    refine Interval.holds_of_same (Scientific.same_shift n zeros shown.exponent) ?_
    rw [hn]
    exact hholds
  have hsome := ofNat_ne_nil n
  have hdigits : ∀ c ∈ Digits.ofNat n, c.isDigit = true := fun c hc => isDigit_of_mem_ofNat hc
  unfold Style.writeDigits
  simp only [hdrop]
  split
  -- The positional layout is marked by its point, the scientific one by its power of ten.
  · obtain ⟨p, htext, hfraction, hsame⟩ :=
      exists_positional hsome hdigits (shown.exponent + zeros)
    refine ⟨⟨negative, p, none⟩, rfl, ?_, Or.inl hfraction, ?_⟩
    · show p.text ++ [] = _
      rw [List.append_nil]
      exact htext.symm
    · intro i hholds
      rw [value_ofNat] at hsame
      have hspelt := Interval.holds_of_same hsame (hshown i hholds)
      unfold Literal.spelt
      simp only [Option.getD_none, Int.zero_sub]
      exact hspelt
  · obtain ⟨p, htext, hvalue, hlength⟩ := exists_scientific hsome hdigits
      (shown.exponent + zeros + (Digits.ofNat n).length - 1)
    refine ⟨⟨negative, p, some (shown.exponent + zeros + (Digits.ofNat n).length - 1)⟩, rfl,
      htext.symm, Or.inr rfl, ?_⟩
    intro i hholds
    have hexponent : shown.exponent + zeros + ((Digits.ofNat n).length : Int) - 1 -
        p.fraction.length = shown.exponent + zeros := by omega
    unfold Literal.spelt
    simp only [Option.getD_some, hvalue, value_ofNat, hexponent]
    exact hshown i hholds

/-! ## Numbers -/

/-- Every finite number is written as a literal, which is no int and reads back. -/
theorem exists_literal {x : Binary64} (hfinite : x.isFinite = true) :
    ∃ l : Literal, Style.value.write x = l.text ∧ l.Marked ∧ read l.text = x := by
  cases x with
  | nan => cases hfinite
  | infinity negative => cases hfinite
  | finite negative s e hcanonical =>
      -- Zero is written on its own; it has no fewest digits.
      by_cases hs : s = 0
      · have he : e = 0 := by
          rcases hcanonical.2.2 with he | hnormal
          · exact he
          · omega
        subst hs he
        refine ⟨⟨negative, ⟨['0'], ['0'], List.cons_ne_nil _ _, ?_, ?_⟩, none⟩, ?_,
          Or.inl (List.cons_ne_nil _ _), ?_⟩
        · decide
        · decide
        · rfl
        · rw [Literal.read_text]
          rfl
      · obtain ⟨l, hnegative, htext, hmarked, hspelt⟩ :=
          exists_literal_of_digits negative (shortest .up s e)
        refine ⟨l, ?_, hmarked, ?_⟩
        · show minus negative ++ (if s = 0 then _ else Style.value.writeDigits _) = _
          rw [if_neg hs, ← hnegative]
          unfold Literal.text
          rw [htext]
          rfl
        · rw [Literal.read_text, hnegative]
          exact ofScientific_of_holds hcanonical hs (hspelt _ (holds_shortest .up hs)) negative

end DocQuery.Number.Binary64
