import DocQuery.Proofs.Json.Canonical
import DocQuery.Proofs.Number.Decimal
import DocQuery.Proofs.Value.ExactOrder
import DocQuery.Value.Json

/-!
# Values and JSON, back and forth

A JSON text is read as a value that is written as the same JSON again: its ints have 64 bits, its
floats are finite, and its members are in order already. The other way a number is written as a
number only where what is read again is equal to it: an int of 64 bits, a finite float, a decimal
that is such an int, or a decimal that its float stands for. The other ints and decimals are written
as strings of all their digits.

Main names:

* `Value.toJson_ofJson` — canonical JSON comes back as it was;
* `Value.Spells` — what a string of digits stands for;
* `Value.Kept` — how a number survives on its way out and in again;
* `Value.kept_int`, `Value.kept_float`, `Value.kept_decimal` — it does, kind by kind;
* `Value.json_faithful` — both directions together.
-/

namespace DocQuery.Value

open Number Text Text.Digits

/-! ## From JSON and back -/

theorem ofJsonItems_eq_map (items : List Json) : ofJsonItems items = items.map ofJson := by
  induction items with
  | nil => rfl
  | cons item items ih => rw [ofJsonItems, ih, List.map_cons]

theorem itemsJson_eq_map (items : List Value) : itemsJson items = items.map toJson := by
  induction items with
  | nil => rfl
  | cons item items ih => rw [itemsJson, ih, List.map_cons]

theorem ofJsonMembers_eq_map (members : List (String × Json)) :
    ofJsonMembers members = members.map fun m => (m.1, ofJson m.2) := by
  induction members with
  | nil => rfl
  | cons m members ih => rw [ofJsonMembers, ih, List.map_cons]

theorem fieldsJson_eq_map (fields : List (String × Value)) :
    fieldsJson fields = fields.map fun f => (f.1, f.2.toJson) := by
  induction fields with
  | nil => rfl
  | cons f fields ih => rw [fieldsJson, ih, List.map_cons]

theorem toJson_ofJson {j : Json} (hj : j.Canonical) : (ofJson j).toJson = j := by
  induction hj with
  | null => rfl
  | bool b => rfl
  | int low high => exact if_pos ⟨low, high⟩
  | float finite => exact if_pos finite
  | string content => rfl
  | @array items _ ih =>
      have hitems : (items.map ofJson).map toJson = items := by
        rw [List.map_map]
        exact (List.map_congr_left ih).trans (List.map_id items)
      rw [ofJson, list, toJson, ofJsonItems_eq_map, itemsJson_eq_map, hitems]
  | @object members sorted _ ih =>
      have hmembers : (members.map fun m => (m.1, ofJson m.2)).map (fun f => (f.1, f.2.toJson)) =
          members := by
        rw [List.map_map]
        refine (List.map_congr_left fun m hm => ?_).trans (List.map_id members)
        exact Prod.ext rfl (ih m hm)
      rw [ofJson, ofFields, toJson, ofJsonMembers_eq_map, fieldsJson_eq_map, hmembers,
        Json.sortMembers_eq_self sorted]

/-! ## Strings of digits -/

/-- Decimal digits, with a minus sign and a point where there are any, and the number that they
stand for. -/
def Spells (content : String) (q : ℚ) : Prop :=
  ∃ (negative : Bool) (p : PointedDigits), content.toList = minus negative ++ p.text ∧
    q = (if negative then -1 else 1) * (value p.digits / 10 ^ p.fraction.length)

theorem spells_ofInt (n : ℤ) : Spells (String.ofList (ofInt n)) n := by
  refine ⟨decide (n < 0), .ofNat n.natAbs, ?_, ?_⟩
  · rw [String.toList_ofList, PointedDigits.text_ofNat, ofInt_eq]
  · have hwhole : (PointedDigits.ofNat n.natAbs).fraction.length = 0 := rfl
    have hcast : ((n.natAbs : ℤ) : ℚ) = (n.natAbs : ℚ) := Int.cast_natCast _
    rw [PointedDigits.digits_ofNat, value_ofNat, hwhole, pow_zero, div_one, ← hcast]
    by_cases hneg : n < 0
    · rw [decide_eq_true hneg, if_pos rfl, Int.ofNat_natAbs_of_nonpos (Int.le_of_lt hneg)]
      push_cast
      ring
    · rw [decide_eq_false hneg, if_neg Bool.false_ne_true, one_mul,
        Int.natAbs_of_nonneg (Int.not_lt.mp hneg)]

theorem spells_write (d : Decimal) : Spells (String.ofList d.write) d.toRat := by
  refine ⟨d.negative, d.pointed, ?_, ?_⟩
  · rw [String.toList_ofList, Decimal.write_eq]
  · rw [PointedDigits.digits, value_append, Decimal.value_digits, Decimal.length_fraction,
      Decimal.toRat, Decimal.signed]
    split <;> push_cast <;> ring

/-! ## To JSON and back -/

/-- What is read again is a number equal to the one that was written, or a string of its digits. -/
def Kept (v : Value) (number : Numeric) : Prop :=
  ((ofJson v.toJson).numeric?.isSome = true ∧ (ofJson v.toJson).compareTo v = .ok .eq) ∨
    ∃ content q, ofJson v.toJson = string content ∧ number.toRat? = some q ∧ Spells content q

variable {v : Value} {number : Numeric}

theorem kept_of_equal {other : Numeric} (hv : v.numeric? = some number)
    (hother : (ofJson v.toJson).numeric? = some other)
    (hequal : compareNumbers other number = .ok .eq) : Kept v number := by
  refine Or.inl ⟨?_, ?_⟩
  · rw [hother]
    rfl
  · rw [compareTo_of_numbers hother hv, hequal]

theorem compareNumbers_int_self (n : ℤ) : compareNumbers (.int n) (.int n) = .ok .eq :=
  congrArg Except.ok (compare_eq_iff_eq.mpr rfl)

theorem compareNumbers_float_self {x : Binary64} (hx : x.isFinite = true) :
    compareNumbers (.float x) (.float x) = .ok .eq := by
  have hform : (Numeric.float x).coerce (.float x) = .float x x := rfl
  have hself : x.compare? x = some .eq := by
    cases x with
    | nan => cases hx
    | infinity => cases hx
    | finite => exact congrArg some (compare_eq_iff_eq.mpr rfl)
  rw [compareNumbers, hform]
  dsimp only
  rw [hself]

theorem compareNumbers_float_decimal {x : Binary64} {d e : Decimal}
    (he : Decimal.ofBinary64? x = some e) (hequal : e.equal d = true) :
    compareNumbers (.float x) (.decimal d) = .ok .eq := by
  have hform : (Numeric.float x).coerce (.decimal d) = .decimal e d := by
    simp only [Numeric.coerce, Numeric.kind, Numeric.commonKind, Numeric.toDecimal?, he]
  rw [compareNumbers, hform]
  exact congrArg Except.ok (beq_iff_eq.mp hequal)

/-- A decimal that is a whole number of 64 bits is equal to it. -/
theorem compareNumbers_toInt64 {d : Decimal} {n : ℤ} (hwhole : d.isIntegral = true)
    (hn : d.toInt64? = some n) : compareNumbers (.int n) (.decimal d) = .ok .eq := by
  unfold Decimal.toInt64? at hn
  dsimp only at hn
  split at hn
  · rename_i hrange
    cases hn
    -- A whole decimal is what it truncates to.
    have hvalue : (d.truncate : ℚ) = d.toRat := by
      have hsplit : d.coefficient / 10 ^ d.scale * 10 ^ d.scale = d.coefficient :=
        Nat.div_mul_cancel (Nat.dvd_of_mod_eq_zero (beq_iff_eq.mp hwhole))
      have hunit : (10 : ℚ) ^ d.scale ≠ 0 := by positivity
      rw [Decimal.toRat, eq_div_iff hunit, Decimal.truncate, Decimal.signed]
      split
      · push_cast
        rw [neg_mul]
        exact_mod_cast congrArg (fun m : ℕ => -(m : ℚ)) hsplit
      · exact_mod_cast hsplit
    -- A number that fits is too small to be compared as a float.
    have hnear : ¬ d.Touches d.truncate := fun htouch => by
      have hlarge := htouch.1
      omega
    rw [(compareNumbers_int_decimal d.truncate d).2 hnear, hvalue, compare_eq_iff_eq.mpr rfl]
  · cases hn

/-! ## Kind by kind -/

theorem kept_int (names : List String) (n : ℤ) : Kept (.scalar names (.int n)) (.int n) := by
  have hjson : (scalar names (.int n)).toJson = intJson n := rfl
  by_cases hrange : -(2 ^ 63) ≤ n ∧ n < 2 ^ 64
  · refine kept_of_equal rfl ?_ (compareNumbers_int_self n)
    rw [hjson, intJson, if_pos hrange]
    rfl
  · refine Or.inr ⟨_, n, ?_, rfl, spells_ofInt n⟩
    rw [hjson, intJson, if_neg hrange]
    rfl

theorem kept_float (names : List String) {x : Binary64} (hx : x.isFinite = true) :
    Kept (.scalar names (.float x)) (.float x) := by
  have hjson : (scalar names (.float x)).toJson = .float x := if_pos hx
  refine kept_of_equal rfl ?_ (compareNumbers_float_self hx)
  rw [hjson]
  rfl

/-- The three ways in which a decimal is written. -/
theorem decimalJson_cases (d : Decimal) :
    (∃ n, d.isIntegral = true ∧ d.toInt64? = some n ∧ decimalJson d = .int n) ∨
      (∃ e, Decimal.ofBinary64? d.toBinary64 = some e ∧ e.equal d = true ∧
        decimalJson d = .float d.toBinary64) ∨
      decimalJson d = .string (String.ofList d.write) := by
  have hfinite : d.toBinary64.isFinite = true := by
    obtain ⟨q, hq, hzero, _⟩ := d.exists_magnitude
    exact (Decimal.signedUnits_toBinary64 hq hzero).1
  unfold decimalJson
  dsimp only
  split
  · rename_i n hwhole hn
    exact Or.inl ⟨n, hwhole, hn, rfl⟩
  · split
    · rename_i e he
      split
      · rename_i hequal
        exact Or.inr (Or.inl ⟨e, he, hequal, if_pos hfinite⟩)
      · exact Or.inr (Or.inr rfl)
    · exact Or.inr (Or.inr rfl)

theorem kept_decimal (names : List String) (d : Decimal) :
    Kept (.scalar names (.decimal d)) (.decimal d) := by
  have hjson : (scalar names (.decimal d)).toJson = decimalJson d := rfl
  rcases decimalJson_cases d with ⟨n, hwhole, hn, hint⟩ | ⟨e, he, hequal, hfloat⟩ | hdigits
  · refine kept_of_equal rfl ?_ (compareNumbers_toInt64 hwhole hn)
    rw [hjson, hint]
    rfl
  · refine kept_of_equal rfl ?_ (compareNumbers_float_decimal he hequal)
    rw [hjson, hfloat]
    rfl
  · refine Or.inr ⟨_, d.toRat, ?_, rfl, spells_write d⟩
    rw [hjson, hdigits]
    rfl

/-- What is read from JSON is written as the same JSON. What is written of a number is read as an
equal number, or as a string that holds all its digits. -/
theorem json_faithful :
    (∀ (text : String) (j : Json), Json.read text = some j → (ofJson j).toJson = j) ∧
      ∀ (v : Value) (number : Numeric), v.numeric? = some number →
        (∀ x, number = .float x → x.isFinite = true) → Kept v number := by
  refine ⟨fun text j hread => toJson_ofJson (Json.canonical_of_read hread),
    fun v number hv hfinite => ?_⟩
  cases v with
  | sequence => cases hv
  | struct => cases hv
  | scalar names content =>
      cases content with
      | int n =>
          cases hv
          exact kept_int names n
      | float x =>
          cases hv
          exact kept_float names (hfinite x rfl)
      | decimal d =>
          cases hv
          exact kept_decimal names d
      | null | bool | timestamp | duration | text | blob | clob => cases hv

/-- Members out of order, one of them twice, the largest int, a float, and an annotated int that is
beyond 64 bits. -/
theorem json_faithful_members :
    (∃ j, Json.read "\x7b\"b\": [1, -0.25], \"a\": 18446744073709551615, \"b\": 1e300\x7d" =
        some j ∧ (ofJson j).toJson = j) ∧
      (scalar ["wide"] (.int (2 ^ 64))).numeric? = some (.int (2 ^ 64)) ∧
      Kept (scalar ["wide"] (.int (2 ^ 64))) (.int (2 ^ 64)) := by
  have hread : (Json.read
      "\x7b\"b\": [1, -0.25], \"a\": 18446744073709551615, \"b\": 1e300\x7d").isSome = true := by
    decide +kernel
  obtain ⟨j, hj⟩ := Option.isSome_iff_exists.mp hread
  exact ⟨⟨j, hj, json_faithful.1 _ j hj⟩, rfl, json_faithful.2 _ _ rfl fun _ hx => nomatch hx⟩

end DocQuery.Value
