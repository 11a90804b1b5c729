import DocQuery.Expression.Evaluate
import DocQuery.Proofs.Sequencing

/-!
# Comparisons agree with each other

Two numbers have the same common form in either order, so the order of two values is turned around
with them, and where there is none there is none for the other side. What the operators say of two
operands follows from the one order that the operands have.

Main names:

* `Numeric.coerce_swap` — the common form of two numbers, in either order;
* `Numeric.coerce_cases` — which form that is;
* `Value.compareTo_swap` — the order of two values, in either order;
* `RelationalOperator.mirror`, `RelationalOperator.complement` — the operators with the sides
  exchanged, and with the opposite answer;
* `Expression.comparisons_coherent` — what the operators say of two values.
-/

namespace DocQuery

open Number

/-! ## Numbers -/

instance : Std.OrientedCmp Decimal.compareTo where
  eq_swap {a b} := by
    unfold Decimal.compareTo
    dsimp only
    rw [Nat.max_comm b.scale a.scale]
    exact Std.OrientedOrd.eq_swap

theorem Number.Binary64.compare?_swap (x y : Binary64) :
    y.compare? x = (x.compare? y).map Ordering.swap := by
  cases x with
  | nan => cases y <;> rfl
  | infinity a =>
      cases y with
      | nan => rfl
      | infinity b => cases a <;> cases b <;> rfl
      | finite => cases a <;> rfl
  | finite =>
      cases y with
      | nan => rfl
      | infinity b => cases b <;> rfl
      | finite => exact congrArg some Std.OrientedOrd.eq_swap

/-- The same pair with its sides exchanged. -/
def NumericPair.swap : NumericPair → NumericPair
  | int a b => .int b a
  | float a b => .float b a
  | decimal a b => .decimal b a

theorem Numeric.coerce_swap (a b : Numeric) : b.coerce a = (a.coerce b).swap := by
  -- The common form is a pair of decimals only if both numbers are decimals.
  cases ha : a.toDecimal? <;> cases hb : b.toDecimal?
  all_goals
    cases a <;> cases b <;> simp only [coerce, kind, commonKind, ha, hb] <;> rfl

theorem Numeric.commonKind_eq_decimal_iff (a b : Numeric) :
    commonKind a.kind b.kind = .decimal ↔ a.kind = .decimal ∨ b.kind = .decimal := by
  cases a <;> cases b <;> simp [commonKind, kind]

/-- The common form of two numbers: that of ints, that of floats, or that of decimals, which is for
a decimal beside a number that has one. -/
theorem Numeric.coerce_cases (a b : Numeric) :
    (∃ m n, a = int m ∧ b = int n ∧ a.coerce b = .int m n) ∨
      (a.coerce b = .float a.toFloat b.toFloat ∧
        (a.kind = .decimal ∨ b.kind = .decimal → a.toDecimal? = none ∨ b.toDecimal? = none)) ∨
      ∃ d e, a.coerce b = .decimal d e ∧ a.toDecimal? = some d ∧ b.toDecimal? = some e ∧
        (a.kind = .decimal ∨ b.kind = .decimal) := by
  unfold coerce
  -- Decimals are chosen for one decimal, and given up where a number has no decimal form.
  split
  · exact Or.inl ⟨_, _, rfl, rfl, rfl⟩
  · refine Or.inr ?_
    have hiff := commonKind_eq_decimal_iff a b
    split
    · rename_i hkind
      split
      · rename_i d e ha hb
        exact Or.inr ⟨d, e, rfl, ha, hb, hiff.mp hkind⟩
      · rename_i hnone
        refine Or.inl ⟨rfl, fun _ => ?_⟩
        cases ha : a.toDecimal? with
        | none => exact Or.inl rfl
        | some d =>
            cases hb : b.toDecimal? with
            | none => exact Or.inr rfl
            | some e => exact absurd hb (hnone d e ha)
    · rename_i hkind
      exact Or.inl ⟨rfl, fun hdecimal => absurd (hiff.mpr hdecimal) hkind⟩

/-! ## Values -/

/-- The same reason with the sides exchanged. -/
def Incomparable.swap : Incomparable → Incomparable
  | unordered left right => .unordered right left
  | unrelated left right => .unrelated right left

/-- The order of two values that is found from the other side. -/
def turned (result : Except Incomparable Ordering) : Except Incomparable Ordering :=
  match result with
  | .ok order => .ok order.swap
  | .error cause => .error cause.swap

namespace Value

theorem compareNumbers_swap (a b : Numeric) : compareNumbers b a = turned (compareNumbers a b) := by
  unfold compareNumbers
  rw [Numeric.coerce_swap a b]
  cases a.coerce b with
  | int x y => exact congrArg Except.ok Std.OrientedOrd.eq_swap
  | decimal x y => exact congrArg Except.ok Std.OrientedCmp.eq_swap
  | float x y =>
      dsimp only [NumericPair.swap]
      rw [Binary64.compare?_swap x y]
      cases x.compare? y <;> rfl

theorem compareTo_of_numbers {a b : Value} {x y : Numeric} (ha : a.numeric? = some x)
    (hb : b.numeric? = some y) : a.compareTo b = compareNumbers x y := by
  unfold compareTo
  rw [ha, hb]

/-- Whether two values can be compared does not depend on their order, and the order of the one is
the reverse of that of the other. -/
theorem compareTo_swap (a b : Value) : b.compareTo a = turned (a.compareTo b) := by
  by_cases hnumbers : a.numeric?.isSome = true ∧ b.numeric?.isSome = true
  · obtain ⟨x, hx⟩ := Option.isSome_iff_exists.mp hnumbers.1
    obtain ⟨y, hy⟩ := Option.isSome_iff_exists.mp hnumbers.2
    rw [compareTo_of_numbers hx hy, compareTo_of_numbers hy hx]
    exact compareNumbers_swap x y
  -- Other values are compared with their own kind only; else there is no order either way.
  · rcases a with ⟨_, content⟩ | _ | _ <;> rcases b with ⟨_, content'⟩ | _ | _
    case scalar.scalar =>
      cases content <;> cases content' <;>
        first
          | rfl
          | exact absurd ⟨rfl, rfl⟩ hnumbers
          | exact congrArg Except.ok Std.OrientedOrd.eq_swap
    case scalar.sequence | scalar.struct => cases content <;> rfl
    case sequence.scalar | struct.scalar => cases content' <;> rfl
    all_goals rfl

end Value

/-! ## Operators -/

namespace RelationalOperator

/-- The operator that says the same of the operands in the other order. -/
def mirror : RelationalOperator → RelationalOperator
  | equal => equal
  | notEqual => notEqual
  | greaterThan => lessThan
  | lessThan => greaterThan
  | greaterOrEqual => lessOrEqual
  | lessOrEqual => greaterOrEqual

/-- The operator that says the opposite. -/
def complement : RelationalOperator → RelationalOperator
  | equal => notEqual
  | notEqual => equal
  | greaterThan => lessOrEqual
  | lessThan => greaterOrEqual
  | greaterOrEqual => lessThan
  | lessOrEqual => greaterThan

theorem holds_mirror (op : RelationalOperator) (order : Ordering) :
    op.mirror.holds order.swap = op.holds order := by
  cases op <;> cases order <;> rfl

theorem holds_complement (op : RelationalOperator) (order : Ordering) :
    op.complement.holds order = !op.holds order := by
  cases op <;> cases order <;> rfl

end RelationalOperator

namespace Expression

variable {x y : Value} {op : RelationalOperator}

/-- What an operator says of two operands: nothing of missing ones, and else what their order
says. -/
theorem relate_cases (x y : Value) :
    ((x.isNull || y.isNull) = true ∧ ∀ op, relate op x y = .ok none) ∨
      ((x.isNull || y.isNull) = false ∧
        ((∃ order, x.compareTo y = .ok order ∧ ∀ op, relate op x y = .ok (some (op.holds order))) ∨
          ∃ cause, x.compareTo y = .error cause ∧
            ∀ op, relate op x y = .error (.mismatch (.incomparable cause)))) := by
  cases hnull : x.isNull || y.isNull with
  | true => exact Or.inl ⟨rfl, fun op => by rw [relate, hnull]; rfl⟩
  | false =>
      refine Or.inr ⟨rfl, ?_⟩
      cases horder : x.compareTo y with
      | ok order =>
          refine Or.inl ⟨order, rfl, fun op => ?_⟩
          rw [relate, hnull, Expression.order, horder]
          rfl
      | error cause =>
          refine Or.inr ⟨cause, rfl, fun op => ?_⟩
          rw [relate, hnull, Expression.order, horder]
          rfl

/-- The operands may be exchanged together with the sides of the operator. -/
theorem relate_mirror (op : RelationalOperator) (x y : Value) :
    (∃ answer, relate op x y = .ok answer ∧ relate op.mirror y x = .ok answer) ∨
      ∃ cause, relate op x y = .error (.mismatch (.incomparable cause)) ∧
        relate op.mirror y x = .error (.mismatch (.incomparable cause.swap)) := by
  rcases relate_cases x y with ⟨hnull, hxy⟩ | ⟨hnull, ⟨order, horder, hxy⟩ | ⟨cause, hcause, hxy⟩⟩
  · refine Or.inl ⟨none, hxy op, ?_⟩
    rw [relate, Bool.or_comm, hnull]
    rfl
  · refine Or.inl ⟨some (op.holds order), hxy op, ?_⟩
    rw [relate, Bool.or_comm, hnull, Expression.order, Value.compareTo_swap x y, horder,
      ← op.holds_mirror order]
    rfl
  · refine Or.inr ⟨cause, hxy op, ?_⟩
    rw [relate, Bool.or_comm, hnull, Expression.order, Value.compareTo_swap x y, hcause]
    rfl

theorem relate_complement (op : RelationalOperator) (x y : Value) :
    relate op.complement x y = (relate op x y).map (Option.map (!·)) := by
  rcases relate_cases x y with ⟨_, hxy⟩ | ⟨_, ⟨order, _, hxy⟩ | ⟨cause, _, hxy⟩⟩
  · rw [hxy, hxy]
    rfl
  · rw [hxy, hxy, op.holds_complement order]
    rfl
  · rw [hxy, hxy]
    rfl

/-- Of `<`, `==` and `>` one says yes, and the other two say no. -/
theorem relate_trichotomy {order : Ordering} (hx : x.isNull = false) (hy : y.isNull = false)
    (horder : x.compareTo y = .ok order) :
    ∃ op ∈ [RelationalOperator.lessThan, .equal, .greaterThan], relate op x y = .ok (some true) ∧
      ∀ other ∈ [RelationalOperator.lessThan, .equal, .greaterThan], other ≠ op →
        relate other x y = .ok (some false) := by
  have hxy : ∀ op, relate op x y = .ok (some (op.holds order)) := fun op => by
    rw [relate, hx, hy, Expression.order, horder]
    rfl
  have hone : ∃ op ∈ [RelationalOperator.lessThan, .equal, .greaterThan], op.holds order = true ∧
      ∀ other ∈ [RelationalOperator.lessThan, .equal, .greaterThan], other ≠ op →
        other.holds order = false := by
    cases order <;> decide
  obtain ⟨op, hop, htrue, hfalse⟩ := hone
  refine ⟨op, hop, by rw [hxy, htrue], fun other hother hne => ?_⟩
  rw [hxy, hfalse other hother hne]

/-- Comparisons agree with each other. For any two values,
* one order is found where the other one is, and it is the reverse of it;
* an operator and the one that mirrors it give the same answer, or fail both;
* an operator and its complement give opposite answers, where they give one;
* if the values are not missing and have an order, then one of `<`, `==` and `>` says yes. -/
theorem comparisons_coherent (x y : Value) :
    (((∃ cause, x.compareTo y = .error cause) ↔ ∃ cause, y.compareTo x = .error cause) ∧
      ∀ order, x.compareTo y = .ok order ↔ y.compareTo x = .ok order.swap) ∧
    (∀ op, (∃ answer, relate op x y = .ok answer ∧ relate op.mirror y x = .ok answer) ∨
      ∃ cause, relate op x y = .error (.mismatch (.incomparable cause)) ∧
        relate op.mirror y x = .error (.mismatch (.incomparable cause.swap))) ∧
    (∀ op, relate op.complement x y = (relate op x y).map (Option.map (!·))) ∧
    ∀ order, x.isNull = false → y.isNull = false → x.compareTo y = .ok order →
      ∃ op ∈ [RelationalOperator.lessThan, .equal, .greaterThan], relate op x y = .ok (some true) ∧
        ∀ other ∈ [RelationalOperator.lessThan, .equal, .greaterThan], other ≠ op →
          relate other x y = .ok (some false) := by
  refine ⟨?_, fun op => relate_mirror op x y, fun op => relate_complement op x y,
    fun _ => relate_trichotomy⟩
  rw [Value.compareTo_swap x y]
  cases x.compareTo y with
  | ok order => simp [turned]
  | error cause => simp [turned]

/-- An int beyond the decimals is compared with a decimal as a float. -/
theorem comparisons_coherent_beyond_decimals :
    let x : Value := .int (10 ^ 30)
    let y : Value := .decimal .one
    x.compareTo y = .ok .gt ∧ y.compareTo x = .ok .lt ∧
      ∃ op ∈ [RelationalOperator.lessThan, .equal, .greaterThan], relate op x y = .ok (some true) := by
  intro x y
  have hcheck : (x.compareTo y).toOption.any (· == .gt) = true := by
    decide +kernel
  obtain ⟨order, horder, heq⟩ := exists_of_any hcheck
  obtain rfl := beq_iff_eq.mp heq
  obtain ⟨⟨_, hreverse⟩, _, _, htrichotomy⟩ := comparisons_coherent x y
  obtain ⟨op, hop, htrue, _⟩ := htrichotomy .gt rfl rfl horder
  exact ⟨horder, (hreverse .gt).mp horder, op, hop, htrue⟩

end Expression

end DocQuery
