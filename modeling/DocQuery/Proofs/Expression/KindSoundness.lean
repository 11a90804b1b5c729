import DocQuery.Expression.Evaluate
import DocQuery.Proofs.Sequencing

/-!
# Kind soundness

Every expression has a static kind before it is evaluated. This module proves that the value of
an evaluation conforms to that kind, whatever the document, the candidate and the patterns that
are kept, and that a test whose answer is open gives one particular missing value.

Main names:

* `StaticKind.Allows` — conformance, with the one exception that decimals make;
* `ArithmeticOperator.apply_allows`, `TemporalOperator.apply_allows` — what operators keep;
* `Expression.evaluate_kind_sound` — the soundness of evaluation.

The exception is arithmetic on decimals outside of their range, which falls back on floats.  Such
a float may be an operand again, so the induction has to carry the exception along.
-/

namespace DocQuery

/-! ## Conformance -/

namespace StaticKind

/-- Whether a static kind allows a value: the value conforms to it, or it is one of the floats
on which decimals fall back outside of their range. -/
def Allows (kind : StaticKind) (v : Value) : Prop :=
  kind.admits v = true ∨ (kind = .decimal ∧ v.kind = .float)

theorem allows_of_isNull (kind : StaticKind) {v : Value} (hnull : v.isNull = true) :
    kind.Allows v := by
  left
  simp [admits, hnull]

theorem allows_of_admitsKind {kind : StaticKind} {v : Value}
    (hkind : kind.admitsKind v.kind = true) : kind.Allows v := by
  left
  simp [admits, hkind]

theorem any_allows (v : Value) : any.Allows v :=
  allows_of_admitsKind rfl

theorem allows_ofKind (v : Value) : (ofKind v.kind).Allows v := by
  apply allows_of_admitsKind
  cases v.kind <;> rfl

/-- The missing value of a static kind conforms to it. -/
theorem allows_null (kind : StaticKind) : kind.Allows (.null kind.nullKind) :=
  allows_of_isNull kind rfl

end StaticKind

/-! ## Arithmetic -/

namespace Kind

/-- A kind, or the floats in place of decimals. -/
def FallsTo (kind found : Kind) : Prop :=
  found = kind ∨ (kind = .decimal ∧ found = .float)

theorem FallsTo.trans {k k' k'' : Kind} (hfirst : k.FallsTo k') (hnext : k'.FallsTo k'') :
    k.FallsTo k'' := by
  rcases hfirst with rfl | ⟨rfl, rfl⟩
  · exact hnext
  · rcases hnext with rfl | ⟨hne, _⟩
    · exact Or.inr ⟨rfl, rfl⟩
    · cases hne

/-- Floats in place of decimal operands make the common kind that of floats, or leave it. -/
theorem FallsTo.commonKind {k k' found found' : Kind} (hk : k.FallsTo found)
    (hk' : k'.FallsTo found') :
    (Numeric.commonKind k k').FallsTo (Numeric.commonKind found found') := by
  rcases hk with rfl | ⟨rfl, rfl⟩
  · rcases hk' with rfl | ⟨rfl, rfl⟩
    · exact Or.inl rfl
    · cases found <;> first | exact Or.inl rfl | exact Or.inr ⟨rfl, rfl⟩
  · rcases hk' with rfl | ⟨rfl, rfl⟩
    · cases found' <;> first | exact Or.inl rfl | exact Or.inr ⟨rfl, rfl⟩
    · exact Or.inr ⟨rfl, rfl⟩

end Kind

namespace NumericPair

/-- The kind of both numbers. -/
def kind : NumericPair → Kind
  | int _ _ => .int
  | float _ _ => .float
  | decimal _ _ => .decimal

end NumericPair

namespace Numeric

theorem isNumeric_commonKind (k k' : Kind) : (commonKind k k').isNumeric = true := by
  cases k <;> cases k' <;> rfl

/-- The common form has the common kind, but for decimals that fall back on floats. -/
theorem commonKind_fallsTo_coerce (a b : Numeric) :
    (commonKind a.kind b.kind).FallsTo (a.coerce b).kind := by
  cases a <;> cases b <;> simp only [coerce, kind, commonKind] <;>
    first
    | exact Or.inl rfl
    | (split
       · exact Or.inl rfl
       · exact Or.inr ⟨rfl, rfl⟩)

end Numeric

namespace Value

theorem kind_of_numeric? {v : Value} {a : Numeric} (hv : v.numeric? = some a) :
    v.kind = a.kind ∧ v.isNull = false := by
  unfold numeric? at hv
  split at hv <;> cases hv <;> exact ⟨rfl, rfl⟩

end Value

namespace NumericPair

/-- An operation on two numbers gives a number of their common form. -/
theorem kind_of_applyNumbers {op : ArithmeticOperator} {a b : Numeric} {v : Value}
    (hv : op.applyNumbers a b = .ok v) : v.kind = (a.coerce b).kind := by
  unfold ArithmeticOperator.applyNumbers at hv
  cases hpair : a.coerce b with
  | int x y =>
      rw [hpair] at hv
      obtain ⟨n, _, rfl⟩ := map_eq_ok hv
      rfl
  | float x y =>
      rw [hpair] at hv
      obtain ⟨n, _, rfl⟩ := map_eq_ok hv
      rfl
  | decimal x y =>
      rw [hpair] at hv
      obtain ⟨n, _, rfl⟩ := map_eq_ok hv
      rfl

end NumericPair

namespace ArithmeticOperator

/-- A result is missing, or a number in the common form of both operands. -/
theorem apply_cases {op : ArithmeticOperator} {static : StaticKind} {left right v : Value}
    (hv : op.apply static left right = .ok v) :
    v.isNull = true ∨
      ∃ a b, left.numeric? = some a ∧ right.numeric? = some b ∧ v.kind = (a.coerce b).kind := by
  unfold apply at hv
  split at hv
  · cases hv
    exact Or.inl rfl
  · split at hv
    · rename_i a b ha hb
      exact Or.inr ⟨a, b, ha, hb, NumericPair.kind_of_applyNumbers hv⟩
    · cases hv

end ArithmeticOperator

namespace StaticKind

/-- An operand of a definite numeric kind is a number of that kind, or a float in place of a
decimal. -/
theorem fallsTo_of_concrete {kind : StaticKind} {k : Kind} {v : Value} {a : Numeric}
    (hkind : kind.concrete? = some k) (hallows : kind.Allows v) (ha : v.numeric? = some a) :
    k.FallsTo a.kind := by
  obtain ⟨hvalue, hpresent⟩ := Value.kind_of_numeric? ha
  rw [← hvalue]
  rcases hallows with hadmits | ⟨rfl, hfloat⟩
  · simp only [admits, hpresent, Bool.false_or] at hadmits
    left
    cases kind <;> cases hkind <;> simpa [admitsKind] using hadmits
  · cases hkind
    exact Or.inr ⟨rfl, hfloat⟩

/-- A definite numeric kind allows what its kind of values falls back on. -/
theorem allows_of_fallsTo {k : Kind} {v : Value} (hv : k.FallsTo v.kind) :
    (ofKind k).Allows v := by
  rcases hv with hv | ⟨rfl, hfloat⟩
  · rw [← hv]
    exact allows_ofKind v
  · exact Or.inr ⟨rfl, hfloat⟩

theorem number_allows {v : Value} (hv : v.kind.isNumeric = true) : number.Allows v :=
  allows_of_admitsKind hv

/-- The static kind of an arithmetic result allows a number in the common form of operands that
their own kinds allow. -/
theorem arithmetic_allows {kind kind' : StaticKind} {left right v : Value} {a b : Numeric}
    (hleft : kind.Allows left) (hright : kind'.Allows right)
    (ha : left.numeric? = some a) (hb : right.numeric? = some b)
    (hv : v.kind = (a.coerce b).kind) :
    ((kind.arithmetic kind').getD .number).Allows v := by
  have hform := Numeric.commonKind_fallsTo_coerce a b
  rw [← hv] at hform
  have hnumber : number.Allows v := by
    apply number_allows
    rcases hform with hcommon | ⟨_, hfloat⟩
    · rw [hcommon]
      exact Numeric.isNumeric_commonKind a.kind b.kind
    · rw [hfloat]
      rfl
  unfold arithmetic
  split
  · split
    · rename_i k k' hk hk'
      -- A result falls to another kind only where its operands did.
      have hoperands := Kind.FallsTo.commonKind (fallsTo_of_concrete hk hleft ha)
        (fallsTo_of_concrete hk' hright hb)
      exact allows_of_fallsTo (hoperands.trans hform)
    · exact hnumber
  · exact hnumber

end StaticKind

/-- Arithmetic keeps conformance: from operands that their kinds allow it gives a value that
the kind of the result allows. -/
theorem ArithmeticOperator.apply_allows {op : ArithmeticOperator} {static kind kind' : StaticKind}
    {left right v : Value} (hleft : kind.Allows left) (hright : kind'.Allows right)
    (hv : op.apply static left right = .ok v) :
    ((kind.arithmetic kind').getD .number).Allows v := by
  rcases apply_cases hv with hnull | ⟨a, b, ha, hb, hkind⟩
  · exact StaticKind.allows_of_isNull _ hnull
  · exact StaticKind.arithmetic_allows hleft hright ha hb hkind

/-! ## Sums and differences with times -/

namespace TemporalOperator

/-- The sums and differences with times that there are: the kinds of the operands and that of
the result. -/
inductive Combines : TemporalOperator → Kind → Kind → Kind → Prop
  | shift (op : TemporalOperator) : Combines op .timestamp .duration .timestamp
  | between : Combines .subtract .timestamp .timestamp .duration
  | durations (op : TemporalOperator) : Combines op .duration .duration .duration

theorem apply_cases {op : TemporalOperator} {static : StaticKind} {left right v : Value}
    (hv : op.apply static left right = .ok v) :
    v.isNull = true ∨
      (left.isNull = false ∧ right.isNull = false ∧ Combines op left.kind right.kind v.kind) := by
  unfold apply at hv
  split at hv
  · cases hv
    exact Or.inl rfl
  · right
    split at hv
    · rename_i t _ d _
      cases hsum : t.add? d <;> rw [hsum] at hv <;> cases hv
      exact ⟨rfl, rfl, .shift .add⟩
    · rename_i t _ d _
      cases hsum : t.sub? d <;> rw [hsum] at hv <;> cases hv
      exact ⟨rfl, rfl, .shift .subtract⟩
    · cases hv
      exact ⟨rfl, rfl, .between⟩
    · rename_i a _ b _
      cases hsum : a.add? b <;> rw [hsum] at hv <;> cases hv
      exact ⟨rfl, rfl, .durations .add⟩
    · rename_i a _ b _
      cases hsum : a.sub? b <;> rw [hsum] at hv <;> cases hv
      exact ⟨rfl, rfl, .durations .subtract⟩
    · cases hv

end TemporalOperator

namespace StaticKind

/-- A static kind that allows a time says nothing, or is the kind of that time. -/
theorem eq_of_allows_temporal {kind : StaticKind} {v : Value} (hallows : kind.Allows v)
    (hpresent : v.isNull = false) (htime : (ofKind v.kind).isTemporal = true) :
    kind = .any ∨ kind = ofKind v.kind := by
  rcases hallows with hadmits | ⟨_, hfloat⟩
  · simp only [admits, hpresent, Bool.false_or] at hadmits
    cases hkind : v.kind <;> rw [hkind] at hadmits htime <;> cases htime
    · cases kind <;> first | exact Or.inl rfl | exact Or.inr rfl | cases hadmits
    · cases kind <;> first | exact Or.inl rfl | exact Or.inr rfl | cases hadmits
  · rw [hfloat] at htime
    cases htime

/-- The table of kinds of sums and differences with times foresees every one there is. -/
theorem temporal_allows {op : TemporalOperator} {kind kind' : StaticKind} {k k' : Kind} {v : Value}
    (hcombines : op.Combines k k' v.kind) (hkind : kind = .any ∨ kind = ofKind k)
    (hkind' : kind' = .any ∨ kind' = ofKind k') :
    ((temporal op kind kind').getD .any).Allows v := by
  apply allows_of_admitsKind
  generalize v.kind = found at hcombines
  cases hcombines with
  | shift op =>
      cases op <;> rcases hkind with rfl | rfl <;> rcases hkind' with rfl | rfl <;> rfl
  | between =>
      rcases hkind with rfl | rfl <;> rcases hkind' with rfl | rfl <;> rfl
  | durations op =>
      cases op <;> rcases hkind with rfl | rfl <;> rcases hkind' with rfl | rfl <;> rfl

end StaticKind

/-- Sums and differences with times keep conformance. -/
theorem TemporalOperator.apply_allows {op : TemporalOperator} {static kind kind' : StaticKind}
    {left right v : Value} (hleft : kind.Allows left) (hright : kind'.Allows right)
    (hv : op.apply static left right = .ok v) :
    ((StaticKind.temporal op kind kind').getD .any).Allows v := by
  rcases apply_cases hv with hnull | ⟨hpresent, hpresent', hcombines⟩
  · exact StaticKind.allows_of_isNull _ hnull
  · have htimes : (StaticKind.ofKind left.kind).isTemporal = true ∧
        (StaticKind.ofKind right.kind).isTemporal = true := by
      generalize left.kind = k, right.kind = k', v.kind = found at hcombines
      cases hcombines <;> exact ⟨rfl, rfl⟩
    exact StaticKind.temporal_allows hcombines
      (StaticKind.eq_of_allows_temporal hleft hpresent htimes.1)
      (StaticKind.eq_of_allows_temporal hright hpresent' htimes.2)

/-! ## References -/

namespace Reference

theorem conform_allows {r : Reference} {found v : Value} (hv : r.conform found = .ok v) :
    r.expected.Allows v := by
  unfold conform at hv
  split at hv
  · cases hv
  · rename_i hadmits
    split at hv
    · cases hv
      exact StaticKind.allows_of_isNull _ (Value.isNull_withAnnotations found.annotations _)
    · cases hv
      exact Or.inl (by simpa using hadmits)

/-- A reference gives a value that its kind allows. -/
theorem value_allows {context : Context} {r : Reference} {v : Value}
    (hv : r.value context = .ok v) : r.expected.Allows v := by
  unfold value at hv
  obtain ⟨selection, _, hv⟩ := bind_eq_ok hv
  cases selection with
  | hit container found => exact conform_allows hv
  | fallback container =>
      cases hv
      exact StaticKind.allows_null r.expected
  | miss container => cases hv

end Reference

/-! ## Evaluation -/

namespace Expression

/-- The expressions that ask something of their operands, and leave it open where these are
missing. -/
def isTest : Expression → Bool
  | negation _ | relational _ _ _ | logical _ _ _ | membership _ _ _ | range _ _ _ _
  | matching _ _ _ | annotationTest _ _ => true
  | _ => false

/-- What is promised of a value of an expression: its kind allows it, and an answer that is
left open is a missing truth value. -/
structure Promises (e : Expression) (v : Value) : Prop where
  allowed : e.kind.Allows v
  openAnswer : e.isTest = true → v.isNull = true → v = .null .bool

theorem promises_of_allows {e : Expression} {v : Value} (hallows : e.kind.Allows v)
    (hplain : e.isTest = false) : e.Promises v :=
  ⟨hallows, fun htest => by rw [hplain] at htest; cases htest⟩

/-- A truth value, missing or not, keeps every promise of an expression that gives one. -/
theorem promises_truth {e : Expression} (hkind : e.kind = .bool) (answer : Option Bool) :
    e.Promises (truth answer) := by
  constructor
  · rw [hkind]
    cases answer with
    | none => exact StaticKind.allows_of_isNull _ rfl
    | some b => exact StaticKind.allows_of_admitsKind rfl
  · intro _ hnull
    cases answer with
    | none => rfl
    | some b => cases hnull

theorem promises_bool {e : Expression} (hkind : e.kind = .bool) (b : Bool) :
    e.Promises (.bool b) :=
  promises_truth hkind (some b)

/-- An expression whose value is a truth value computed in one step keeps its promises. -/
theorem gives_truth {e : Expression} (hkind : e.kind = .bool) {α : Type}
    {result : Except EvalError α} {build : α → Value}
    (hbuild : ∀ a, ∃ answer, build a = truth answer) :
    Gives (Evaluation.lift (build <$> result)) e.Promises := by
  apply gives_lift
  intro v hv
  obtain ⟨a, _, rfl⟩ := map_eq_ok hv
  obtain ⟨answer, hanswer⟩ := hbuild a
  rw [hanswer]
  exact promises_truth hkind answer

theorem negate_eq_truth {operand v : Value} (hv : negate operand = .ok v) :
    ∃ answer, v = truth answer := by
  obtain ⟨b, _, hv⟩ := bind_eq_ok hv
  cases hv
  exact ⟨_, rfl⟩

theorem applyLogical_eq_truth {op : LogicalOperator} {left right v : Value}
    (hv : applyLogical op left right = .ok v) : ∃ answer, v = truth answer := by
  obtain ⟨a, _, hv⟩ := bind_eq_ok hv
  obtain ⟨b, _, hv⟩ := bind_eq_ok hv
  cases a <;> cases b <;> cases hv <;> exact ⟨_, rfl⟩

theorem carries_eq_truth {subject name v : Value} (hv : carries subject name = .ok v) :
    ∃ answer, v = truth answer := by
  unfold carries at hv
  split at hv
  · cases hv
    exact ⟨some _, rfl⟩
  · split at hv
    · cases hv
      exact ⟨none, rfl⟩
    · cases hv

/-- A concatenation gives a text or a missing one. -/
theorem evaluateTexts_gives (context : Context) (arguments : List Expression) :
    Gives (evaluateTexts context arguments) (concatenation arguments).Promises := by
  cases arguments with
  | nil =>
      rw [evaluateTexts]
      exact gives_pure
        (promises_of_allows (StaticKind.allows_of_admitsKind rfl) rfl)
  | cons e rest =>
      rw [evaluateTexts]
      refine gives_bind (gives_true _) fun first _ => ?_
      refine gives_bind (gives_true _) fun text _ => ?_
      cases text with
      | none =>
          exact gives_pure
            (promises_of_allows (StaticKind.allows_of_isNull _ rfl) rfl)
      | some text =>
          refine gives_bind (gives_true _) fun vs _ => ?_
          exact gives_pure
            (promises_of_allows (StaticKind.allows_of_admitsKind rfl) rfl)

/-- Every expression keeps its promises. Only operations on numbers and times rely on those of
their operands; a test checks what it needs when it is evaluated. -/
theorem evaluate_gives (context : Context) :
    ∀ e : Expression, Gives (evaluate context e) e.Promises
  | constant v => by
      rw [evaluate]
      exact gives_pure (promises_of_allows (StaticKind.allows_ofKind v) rfl)
  | now => by
      rw [evaluate]
      exact gives_pure
        (promises_of_allows (StaticKind.allows_of_admitsKind rfl) rfl)
  | reference r => by
      rw [evaluate]
      exact gives_lift fun v hv => promises_of_allows (Reference.value_allows hv) rfl
  | key => by
      rw [evaluate]
      exact gives_lift fun v _ => promises_of_allows (StaticKind.any_allows v) rfl
  | negation operand => by
      rw [evaluate]
      -- A truth value is promised whatever the operand is.
      refine gives_bind (gives_true _) fun a _ => ?_
      refine gives_lift fun v hv => ?_
      obtain ⟨answer, rfl⟩ := negate_eq_truth hv
      exact promises_truth rfl answer
  | existence r => by
      rw [evaluate]
      exact gives_truth rfl fun found => ⟨some found, rfl⟩
  | kindTest r test negated => by
      rw [evaluate]
      exact gives_truth rfl fun found => ⟨some (found != negated), rfl⟩
  | arithmetic op left right => by
      rw [evaluate]
      refine gives_bind (evaluate_gives context left) fun a ha => ?_
      refine gives_bind (evaluate_gives context right) fun b hb => ?_
      refine gives_lift fun v hv => promises_of_allows ?_ rfl
      exact ArithmeticOperator.apply_allows ha.allowed hb.allowed hv
  | temporal op left right => by
      rw [evaluate]
      refine gives_bind (evaluate_gives context left) fun a ha => ?_
      refine gives_bind (evaluate_gives context right) fun b hb => ?_
      refine gives_lift fun v hv => promises_of_allows ?_ rfl
      exact TemporalOperator.apply_allows ha.allowed hb.allowed hv
  | relational op left right => by
      rw [evaluate]
      refine gives_bind (gives_true _) fun a _ => ?_
      refine gives_bind (gives_true _) fun b _ => ?_
      exact gives_truth rfl fun answer => ⟨answer, rfl⟩
  | logical op left right => by
      rw [evaluate]
      refine gives_bind (gives_true _) fun a _ => ?_
      refine gives_bind (gives_true _) fun b _ => ?_
      refine gives_lift fun v hv => ?_
      obtain ⟨answer, rfl⟩ := applyLogical_eq_truth hv
      exact promises_truth rfl answer
  | membership subject candidates negated => by
      rw [evaluate]
      refine gives_bind (gives_true _) fun a _ => ?_
      refine gives_bind (gives_true _) fun vs _ => ?_
      exact gives_truth rfl fun found => ⟨found.map (· != negated), rfl⟩
  | range subject lower upper negated => by
      rw [evaluate]
      refine gives_bind (gives_true _) fun a _ => ?_
      refine gives_bind (gives_true _) fun b _ => ?_
      refine gives_bind (gives_true _) fun c _ => ?_
      exact gives_truth rfl fun found => ⟨found.map (· != negated), rfl⟩
  | matching op subject argument => by
      rw [evaluate]
      refine gives_bind (gives_true _) fun a _ => ?_
      refine gives_bind (gives_true _) fun b _ => ?_
      refine gives_bind (gives_true _) fun texts _ => ?_
      cases texts with
      | none => exact gives_pure (promises_truth rfl none)
      | some texts =>
          refine gives_bind (gives_true _) fun r _ => ?_
          exact gives_pure (promises_bool rfl _)
  | concatenation arguments => by
      rw [evaluate]
      exact evaluateTexts_gives context arguments
  | annotationTest subject name => by
      rw [evaluate]
      refine gives_bind (gives_true _) fun a _ => ?_
      refine gives_bind (gives_true _) fun b _ => ?_
      refine gives_lift fun v hv => ?_
      obtain ⟨answer, rfl⟩ := carries_eq_truth hv
      exact promises_truth rfl answer

/-- **Kind soundness.** Whatever the document, the candidate and the patterns that are kept, a
value of an expression conforms to the static kind of the expression, or is a float where that
kind is `decimal`; and a missing value of a test is a missing truth value. -/
theorem evaluate_kind_sound (context : Context) (e : Expression) (cache cache' : Regex.Cache)
    (v : Value) (hrun : (evaluate context e).run.run cache = (.ok v, cache')) :
    (e.kind.admits v = true ∨ (e.kind = .decimal ∧ v.kind = .float)) ∧
      (e.isTest = true → v.isNull = true → v = .null .bool) := by
  have hpromises : e.Promises v := evaluate_gives context e cache cache' v hrun
  exact ⟨hpromises.allowed, hpromises.openAnswer⟩

/-- The float that is no number has no decimal: its sum with one has the static kind `decimal`
and is a float. -/
theorem evaluate_kind_sound_decimal_fallback :
    let one : Number.Decimal := ⟨false, 1, 0, by decide, by decide⟩
    let sum := arithmetic .add (constant (.float .nan)) (constant (.decimal one))
    let context : Context := ⟨.null .null, none, default⟩
    (evaluate context sum).run.run (Regex.Cache.new 0) =
        (.ok (.float .nan), Regex.Cache.new 0) ∧
      (sum.kind.admits (.float .nan) = true ∨
        (sum.kind = .decimal ∧ (Value.float .nan).kind = .float)) ∧
      (sum.isTest = true → (Value.float .nan).isNull = true →
        Value.float .nan = .null .bool) := by
  intro one sum context
  have hrun : (evaluate context sum).run.run (Regex.Cache.new 0) =
      (.ok (.float .nan), Regex.Cache.new 0) := by
    rfl
  exact ⟨hrun, evaluate_kind_sound context sum _ _ _ hrun⟩

end Expression

end DocQuery
