import DocQuery.Text.Digits

/-!
# Digits read back

What is written of a natural number reads as that number again. Writing splits a long number in
the middle; the digits of a block are related to the number by the place at which it is split.

Main names:

* `Digits.value_append` — the value of a run of digits, by its parts;
* `Digits.value_block` — what the digits of a block stand for;
* `Digits.value_ofNat` — the digits of a number stand for it;
* `Digits.isDigit_of_mem_ofNat`, `Digits.ofNat_ne_nil`, `Digits.head_ofNat_ne_zero` — the shape
  of what is written.
-/

namespace DocQuery.Text

/-- A claim about the characters of a given text is decided along that text. The instance for a
claim about all characters would run over every one there is. -/
instance decidableForallMemText {p : Char → Prop} [DecidablePred p] (text : List Char) :
    Decidable (∀ c ∈ text, p c) :=
  List.decidableBAll p text

namespace Digits

/-! ## Single digits -/

theorem digitValue_digitChar {d : Nat} (hd : d < 10) : digitValue (digitChar d) = d := by
  have hall : ∀ d : Fin 10, digitValue (digitChar d.val) = d.val := by
    decide
  exact hall ⟨d, hd⟩

theorem isDigit_digitChar {d : Nat} (hd : d < 10) : (digitChar d).isDigit = true := by
  have hall : ∀ d : Fin 10, (digitChar d.val).isDigit = true := by
    decide
  exact hall ⟨d, hd⟩

theorem eq_zero_of_digitChar {d : Nat} (hd : d < 10) (hzero : digitChar d = '0') : d = 0 := by
  have hvalue := digitValue_digitChar hd
  rw [hzero] at hvalue
  exact hvalue.symm

/-! ## Runs of digits -/

@[simp] theorem value_nil : value [] = 0 := rfl

private theorem foldl_value (digits : List Char) (start : Nat) :
    digits.foldl (fun n c => n * 10 + digitValue c) start =
      start * 10 ^ digits.length + value digits := by
  induction digits generalizing start with
  | nil => simp
  | cons c digits ih =>
      have hzero := ih (0 * 10 + digitValue c)
      rw [value, List.foldl_cons, List.foldl_cons, ih, hzero, List.length_cons, Nat.pow_succ]
      rw [Nat.add_mul, Nat.zero_mul, Nat.zero_add, Nat.mul_assoc, Nat.mul_comm 10,
        Nat.add_assoc]

/-- The value of digits one after the other: the first ones are moved up by as many places as
there are others. -/
theorem value_append (digits digits' : List Char) :
    value (digits ++ digits') = value digits * 10 ^ digits'.length + value digits' := by
  rw [value, List.foldl_append, foldl_value]
  rfl

theorem value_cons (c : Char) (digits : List Char) :
    value (c :: digits) = digitValue c * 10 ^ digits.length + value digits := by
  have happend := value_append [c] digits
  rw [show value [c] = digitValue c by simp [value]] at happend
  exact happend

theorem digitValue_lt {c : Char} (hc : c.isDigit = true) : digitValue c < 10 := by
  simp only [Char.isDigit, Bool.and_eq_true, decide_eq_true_eq] at hc
  have hhigh : c.toNat ≤ 57 := hc.2
  unfold digitValue
  rw [show '0'.toNat = 48 from rfl]
  omega

/-- So many digits denote a number below that power of ten. -/
theorem value_lt_pow {digits : List Char} (hdigits : ∀ c ∈ digits, c.isDigit = true) :
    value digits < 10 ^ digits.length := by
  induction digits with
  | nil => decide
  | cons c digits ih =>
      obtain ⟨hc, hdigits⟩ := List.forall_mem_cons.mp hdigits
      have hfirst := digitValue_lt hc
      have hothers := ih hdigits
      rw [value_cons, List.length_cons, Nat.pow_succ]
      calc digitValue c * 10 ^ digits.length + value digits
          < digitValue c * 10 ^ digits.length + 10 ^ digits.length := by omega
        _ = (digitValue c + 1) * 10 ^ digits.length := (Nat.succ_mul ..).symm
        _ ≤ 10 * 10 ^ digits.length := Nat.mul_le_mul_right _ hfirst
        _ = 10 ^ digits.length * 10 := Nat.mul_comm ..

/-! ## Blocks -/

@[simp] theorem length_block (k n : Nat) : (block k n).length = 2 ^ k := by
  induction k generalizing n with
  | zero => rfl
  | succ k ih => rw [block, List.length_append, ih, ih, Nat.pow_succ, Nat.mul_two]

/-- A block holds the lowest digits of a number. -/
theorem value_block (k n : Nat) : value (block k n) = n % 10 ^ 2 ^ k := by
  induction k generalizing n with
  | zero =>
      have hd : n % 10 < 10 := Nat.mod_lt n (by decide)
      simp [block, value, digitValue_digitChar hd]
  | succ k ih =>
      rw [block, value_append, ih, ih, length_block, Nat.mod_mod, Nat.pow_succ 2, Nat.mul_two,
        Nat.pow_add, Nat.mod_mul]
      rw [Nat.mul_comm, Nat.add_comm]

theorem isDigit_of_mem_block {k n : Nat} {c : Char} (hc : c ∈ block k n) : c.isDigit = true := by
  induction k generalizing n with
  | zero =>
      rw [block, List.mem_singleton] at hc
      rw [hc]
      exact isDigit_digitChar (Nat.mod_lt n (by decide))
  | succ k ih =>
      rw [block, List.mem_append] at hc
      rcases hc with hc | hc
      · exact ih hc
      · exact ih hc

/-- The level of a number is high enough for all of its digits. -/
theorem lt_pow_level (n : Nat) : n < 10 ^ 2 ^ level n := by
  have hbits : n.log2 + 1 ≤ 2 ^ level n := Nat.le_of_lt Nat.lt_log2_self
  calc
    n < 2 ^ (n.log2 + 1) := Nat.lt_log2_self
    _ ≤ 2 ^ 2 ^ level n := Nat.pow_le_pow_right (by decide) hbits
    _ ≤ 10 ^ 2 ^ level n := Nat.pow_le_pow_left (by decide) _

/-! ## Numbers -/

theorem value_dropWhile_zero (digits : List Char) :
    value (digits.dropWhile (· == '0')) = value digits := by
  induction digits with
  | nil => rfl
  | cons c digits ih =>
      rw [List.dropWhile_cons]
      split
      · rename_i hc
        rw [ih, value_cons, eq_of_beq hc]
        show value digits = (0 : Nat) * _ + value digits
        omega
      · rfl

/-- The digits of a number stand for that number. -/
@[simp] theorem value_ofNat (n : Nat) : value (ofNat n) = n := by
  unfold ofNat
  split
  · rename_i hn
    simp [value, digitValue_digitChar hn]
  · rw [value_dropWhile_zero, value_block, Nat.mod_eq_of_lt (lt_pow_level n)]

theorem isDigit_of_mem_ofNat {n : Nat} {c : Char} (hc : c ∈ ofNat n) : c.isDigit = true := by
  unfold ofNat at hc
  split at hc
  · rename_i hn
    rw [List.mem_singleton] at hc
    rw [hc]
    exact isDigit_digitChar hn
  · exact isDigit_of_mem_block (List.dropWhile_subset _ hc)

theorem ofNat_ne_nil (n : Nat) : ofNat n ≠ [] := by
  intro hnil
  have hvalue := value_ofNat n
  rw [hnil, value_nil] at hvalue
  subst hvalue
  cases hnil

/-- Only the number zero is written with a zero in front. -/
theorem head_ofNat_ne_zero {n : Nat} {digits : List Char} (hn : n ≠ 0) :
    ofNat n ≠ '0' :: digits := by
  intro hdigits
  unfold ofNat at hdigits
  split at hdigits
  · rename_i hsmall
    obtain ⟨hzero, _⟩ := List.cons.inj hdigits
    exact hn (eq_zero_of_digitChar hsmall hzero)
  · have hhead := List.head?_dropWhile_not (· == '0') (block (level n) n)
    rw [hdigits] at hhead
    simp at hhead

theorem ofNat_zero : ofNat 0 = ['0'] := rfl

end Digits

end DocQuery.Text
