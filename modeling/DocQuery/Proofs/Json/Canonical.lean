import DocQuery.Json.Reader
import DocQuery.Proofs.Json.Members
import DocQuery.Proofs.Number.Binary64.Rounded

/-!
# What reading makes

A text is read as a value whose numbers are ints of at most 64 bits or finite floats, and whose
members have ascending names. For ints and members this is what the reader looks after. A float is
a significand of 64 bits that is scaled by powers of ten: a product beyond the range is refused, and
a quotient by a power of ten is never larger than what was divided.

Main names:

* `Json.Canonical` — the values that texts stand for;
* `Json.isFinite_of_scale` — scaling leaves the finite numbers only by failing;
* `Json.Makes` — what holds of everything that a reader takes from a text;
* `Json.canonical_of_read` — every text that is read makes a canonical value.
-/

namespace DocQuery

open Number Binary64

/-! ## Quotients by powers of ten -/

theorem Number.Binary64.isFinite_neg (x : Binary64) : x.neg.isFinite = x.isFinite := by
  cases x <;> rfl

namespace Json

variable {x y : Binary64} {m n : Nat} {exponent : Int} {negative : Bool} {j : Json}

theorem powerOfTen_eq (hn : n ≤ 308) : powerOfTen n = round false (10 ^ n * unitsPerOne) 1 := by
  have hsmall : ¬ (400 : Int) < n := by omega
  have hlarge : ¬ (n : Int) + (Nat.log2 1 : Int) < -1200 := by omega
  have hwhole : (0 : Int) ≤ n := by omega
  unfold powerOfTen ofScientific ofRatio
  rw [if_neg (by decide), if_neg hsmall, if_neg hlarge, if_pos hwhole, Int.toNat_natCast,
    Nat.one_mul]

/-- The powers of ten that are kept are finite, and at least one. -/
theorem exists_powerOfTen (hn : n ≤ 308) : ∃ k, Counts (powerOfTen n) k ∧ unitsPerOne ≤ k := by
  have hpower : 10 ^ n ≤ 3 * 2 ^ 1022 :=
    Nat.le_trans (Nat.pow_le_pow_right (by decide) hn) (by decide +kernel)
  have hrange : rounded (10 ^ n * unitsPerOne) 1 < ceiling := by
    have hle : rounded (10 ^ n * unitsPerOne) 1 ≤ 3 * 2 ^ 1022 * unitsPerOne := by
      unfold unitsPerOne
      generalize 1022 = top, 1074 = least at hpower ⊢
      rw [Nat.mul_assoc 3, ← Nat.pow_add]
      refine rounded_le Nat.one_pos (by decide) ?_
      rw [Nat.mul_one, Nat.pow_add, ← Nat.mul_assoc]
      exact Nat.mul_le_mul_right _ hpower
    have htop : 3 * 2 ^ 1022 < 2 ^ 1024 := by decide +kernel
    unfold ceiling
    generalize 1022 = top, 1024 = past at hle htop ⊢
    exact Nat.lt_of_le_of_lt hle (Nat.mul_lt_mul_of_pos_right htop unitsPerOne_pos)
  refine ⟨_, ?_, one_le_rounded (n := 10 ^ n) (Nat.ne_of_gt (Nat.pow_pos (by decide)))⟩
  rw [powerOfTen_eq hn]
  exact counts_round Nat.one_pos hrange

/-- A number divided by a power of ten is no larger than it was. -/
theorem exists_div_powerOfTen (hx : Counts x m) (hn : n ≤ 308) :
    ∃ k, Counts (x.div (powerOfTen n)) k := by
  obtain ⟨k, hk, hone⟩ := exists_powerOfTen hn
  have hpos : 0 < k := Nat.lt_of_lt_of_le unitsPerOne_pos hone
  have hle : rounded (m * unitsPerOne) k ≤ 2 ^ 0 * m := by
    refine hx.rounded_le hpos ?_
    rw [Nat.pow_zero, Nat.one_mul]
    exact Nat.mul_le_mul_left m hone
  rw [Nat.pow_zero, Nat.one_mul] at hle
  exact ⟨_, hx.div hk hpos (Nat.lt_of_le_of_lt hle hx.lt_ceiling)⟩

theorem isFinite_of_scale {fuel : Nat} (hx : Counts x m) (hy : scale fuel x exponent = some y) :
    y.isFinite = true := by
  induction fuel generalizing x m exponent with
  | zero =>
      cases hy
      rfl
  | succ fuel ih =>
      unfold scale at hy
      split at hy
      · rename_i hsmall
        split at hy
        · dsimp only at hy
          split at hy
          · rename_i hfinite
            cases hy
            exact hfinite
          · cases hy
        · cases hy
          obtain ⟨k, hk⟩ := exists_div_powerOfTen hx hsmall
          exact hk.finite
      · split at hy
        · cases hy
          exact hx.finite
        · split at hy
          · cases hy
          -- The exponent is worked off in steps of the largest power of ten.
          · obtain ⟨k, hk⟩ := exists_div_powerOfTen hx (Nat.le_refl 308)
            exact ih hk hy

/-! ## Canonical values -/

/-- The values that a text can stand for. -/
inductive Canonical : Json → Prop
  | null : Canonical .null
  | bool (b : Bool) : Canonical (.bool b)
  | int {n : Int} (low : -(2 ^ 63) ≤ n) (high : n < 2 ^ 64) : Canonical (.int n)
  | float {x : Binary64} (finite : x.isFinite = true) : Canonical (.float x)
  | string (content : String) : Canonical (.string content)
  | array {items : List Json} (canonical : ∀ item ∈ items, Canonical item) :
      Canonical (.array items)
  | object {members : List (String × Json)} (sorted : Sorted members)
      (canonical : ∀ m ∈ members, Canonical m.2) : Canonical (.object members)

/-- Everything that a reader takes from the front of a text has a property. -/
def Makes {α : Type} (reader : Reader α) (holds : α → Prop) : Prop :=
  ∀ text a rest, reader text = some (a, rest) → holds a

/-! ## Numbers -/

theorem readWord_lt {count : Nat} {text : List Char} (hn : n < wordBound) :
    (readWord n count text).1 < wordBound := by
  induction text generalizing n count with
  | nil => exact hn
  | cons c rest ih =>
      unfold readWord
      split
      · rename_i hfits
        rw [Bool.and_eq_true, decide_eq_true_eq] at hfits
        exact ih hfits.2
      · exact hn

theorem canonical_ofParts (hn : n < wordBound) (hj : ofParts negative n exponent = some j) :
    j.Canonical := by
  obtain ⟨x, hx, hj⟩ := Option.bind_eq_some_iff.mp hj
  cases hj
  have hfinite := isFinite_of_scale (counts_ofInt (k := 64) (by decide) (Nat.le_of_lt hn)) hx
  refine .float ?_
  split
  · rw [isFinite_neg, hfinite]
  · exact hfinite

theorem makes_readExponent (negative : Bool) (hn : n < wordBound) (before : Int) :
    Makes (readExponent negative n before) Canonical := by
  intro text j rest hread
  unfold readExponent at hread
  -- The sign of the exponent makes no difference.
  split at hread
  all_goals
    dsimp only at hread
    split at hread
    · cases hread
    · split at hread
      · split at hread
        · cases hread
          exact .float rfl
        · cases hread
      · obtain ⟨_, hj, hread⟩ := Option.bind_eq_some_iff.mp hread
        cases hread
        exact canonical_ofParts hn hj

theorem makes_finishFloat (negative : Bool) (hn : n < wordBound) (exponent : Int) :
    Makes (finishFloat negative n exponent) Canonical := by
  intro text j rest hread
  unfold finishFloat at hread
  split at hread
  · exact makes_readExponent negative hn exponent _ j rest hread
  · exact makes_readExponent negative hn exponent _ j rest hread
  · obtain ⟨_, hj, hread⟩ := Option.bind_eq_some_iff.mp hread
    cases hread
    exact canonical_ofParts hn hj

theorem makes_readFraction (negative : Bool) (hn : n < wordBound) (exponent : Int) :
    Makes (readFraction negative n exponent) Canonical := by
  intro text j rest hread
  unfold readFraction at hread
  split at hread
  · rename_i c tail
    split at hread
    · have hword : (readWord n 0 (c :: tail)).1 < wordBound := readWord_lt hn
      generalize readWord n 0 (c :: tail) = word at hword hread
      exact makes_finishFloat negative hword _ _ j rest hread
    · cases hread
  · cases hread

theorem makes_finishNumber (negative : Bool) (hn : n < wordBound) :
    Makes (finishNumber negative n) Canonical := by
  intro text j rest hread
  have hbound : n < 2 ^ 64 := hn
  unfold finishNumber at hread
  split at hread
  · exact makes_readFraction negative hn 0 _ j rest hread
  · exact makes_readExponent negative hn 0 _ j rest hread
  · exact makes_readExponent negative hn 0 _ j rest hread
  · split at hread
    · cases hread
      exact .int (by omega) (by omega)
    -- A negative int beyond 64 bits, or a negative zero, becomes a float.
    · split at hread
      · cases hread
        refine .float ?_
        rw [isFinite_neg]
        exact (counts_ofInt (k := 64) (by decide) (Nat.le_of_lt hbound)).finite
      · cases hread
        exact .int (by omega) (by omega)

theorem makes_readUnsigned (negative : Bool) : Makes (readUnsigned negative) Canonical := by
  intro text j rest hread
  have hzero : 0 < wordBound := by decide
  unfold readUnsigned at hread
  split at hread
  · split at hread
    · split at hread
      · cases hread
      · exact makes_finishNumber negative hzero _ j rest hread
    · exact makes_finishNumber negative hzero _ j rest hread
  · split at hread
    · rename_i c tail _
      split at hread
      · have hword : (readWord 0 0 (c :: tail)).1 < wordBound := readWord_lt hzero
        generalize readWord 0 0 (c :: tail) = word at hword hread
        dsimp only at hread
        split at hread
        · exact makes_finishNumber negative hword _ j rest hread
        -- Digits that do not fit become powers of ten.
        · split at hread
          · exact makes_readFraction negative hword _ _ j rest hread
          · exact makes_finishFloat negative hword _ _ j rest hread
      · cases hread
    · cases hread

theorem makes_readNumber : Makes readNumber Canonical := by
  intro text j rest hread
  unfold readNumber at hread
  split at hread
  · exact makes_readUnsigned true _ j rest hread
  · exact makes_readUnsigned false _ j rest hread

/-! ## Values -/

theorem makes_readScalar : Makes readScalar Canonical := by
  intro text j rest hread
  unfold readScalar at hread
  split at hread
  · cases hread
    exact .null
  · cases hread
    exact .bool true
  · cases hread
    exact .bool false
  · obtain ⟨_, _, hread⟩ := Option.bind_eq_some_iff.mp hread
    cases hread
    exact .string _
  · exact makes_readNumber _ j rest hread

section Containers

variable {α : Type} {element : Reader α} {holds : α → Prop} {closing : Char}

theorem makes_readElements (helement : Makes element holds) (fuel : Nat) :
    Makes (readElements element closing fuel) fun items => ∀ item ∈ items, holds item := by
  induction fuel with
  | zero => exact fun _ _ _ hread => nomatch hread
  | succ fuel ih =>
      intro text items rest hread
      unfold readElements at hread
      obtain ⟨⟨first, after⟩, hfirst, hread⟩ := Option.bind_eq_some_iff.mp hread
      have hholds : holds first := helement text first after hfirst
      dsimp only at hread
      split at hread
      · split at hread
        · obtain ⟨⟨others, after'⟩, hothers, hread⟩ := Option.bind_eq_some_iff.mp hread
          cases hread
          exact List.forall_mem_cons.mpr ⟨hholds, ih _ others after' hothers⟩
        · split at hread
          · cases hread
            exact List.forall_mem_singleton.mpr hholds
          · cases hread
      · cases hread

theorem makes_readContainer (helement : Makes element holds) :
    Makes (readContainer element closing) fun items => ∀ item ∈ items, holds item := by
  intro text items rest hread
  unfold readContainer at hread
  split at hread
  · split at hread
    · cases hread
      exact List.forall_mem_nil _
    · exact makes_readElements helement _ text items rest hread
  · cases hread

end Containers

theorem makes_readMember {value : Reader Json} (hvalue : Makes value Canonical) :
    Makes (readMember value) fun m => m.2.Canonical := by
  intro text m rest hread
  unfold readMember at hread
  split at hread
  · obtain ⟨⟨name, after⟩, _, hread⟩ := Option.bind_eq_some_iff.mp hread
    dsimp only at hread
    split at hread
    · obtain ⟨⟨j, after'⟩, hj, hread⟩ := Option.bind_eq_some_iff.mp hread
      cases hread
      exact hvalue _ j after' hj
    · cases hread
  · cases hread

theorem makes_readValue (depth : Nat) : Makes (readValue depth) Canonical := by
  induction depth with
  | zero => exact fun text j rest hread => makes_readScalar _ j rest hread
  | succ depth ih =>
      intro text j rest hread
      unfold readValue at hread
      split at hread
      · obtain ⟨⟨items, after⟩, hitems, hread⟩ := Option.bind_eq_some_iff.mp hread
        cases hread
        exact .array (makes_readContainer ih _ items _ hitems)
      · obtain ⟨⟨members, after⟩, hmembers, hread⟩ := Option.bind_eq_some_iff.mp hread
        cases hread
        have hcanonical := makes_readContainer (makes_readMember ih) _ members _ hmembers
        exact .object (sorted_sortMembers members) fun m hm =>
          hcanonical m (mem_of_mem_sortMembers hm)
      · exact makes_readScalar _ j rest hread

theorem canonical_of_read {text : String} (hread : read text = some j) : j.Canonical := by
  unfold read at hread
  obtain ⟨⟨j', after⟩, hvalue, hread⟩ := Option.bind_eq_some_iff.mp hread
  dsimp only at hread
  split at hread
  · cases hread
    exact makes_readValue 127 _ j after hvalue
  · cases hread

end Json

end DocQuery
