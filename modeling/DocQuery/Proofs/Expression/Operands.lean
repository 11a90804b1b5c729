import DocQuery.Proofs.Expression.KindSoundness
import DocQuery.Proofs.Sequencing
import Mathlib.Tactic.SplitIfs

/-!
# Operands of definite kinds

What the checks before an evaluation say of the kinds of operands is enough for the operations: each
of them takes every value that the checked kinds allow, missing ones included.  Only comparisons are
left with something to refuse, a float that is no number.

Main names:

* `Value.Of`, `StaticKind.Allows.of` — what a value of a definite kind looks like;
* `NoMismatch`, `ArithmeticOperator.noMismatch_apply`, `TemporalOperator.noMismatch_apply` —
  operations that refuse no kind of operand;
* `Expression.comparable_of`, `Expression.isMember_fails`, `Expression.isBetween_fails` —
  comparisons.
-/

namespace DocQuery

open Number

/-! ## Values of definite kinds -/

/-- What a value of a definite kind looks like. -/
inductive Value.Of : StaticKind → Value → Prop
  | missing {kind : StaticKind} {names : List String} {k : Kind} : Of kind (.scalar names (.null k))
  | bool {names : List String} {b : Bool} : Of .bool (.scalar names (.bool b))
  | timestamp {names : List String} {t : Time.Timestamp} : Of .timestamp (.scalar names (.timestamp t))
  | duration {names : List String} {d : Time.Duration} : Of .duration (.scalar names (.duration d))
  | text {names : List String} {form : TextForm} {content : String} :
      Of .string (.scalar names (.text form content))
  | number {kind : StaticKind} {v : Value} {a : Numeric} (hkind : kind.isNumeric = true)
      (ha : v.numeric? = some a) : Of kind v

namespace StaticKind

/-- A definite kind allows nothing but the values that look so. -/
theorem Allows.of {kind : StaticKind} {v : Value} (hallows : kind.Allows v) (hkind : kind ≠ .any) :
    v.Of kind := by
  -- Most pairs of a kind and a value are excluded by evaluation.
  cases v with
  | scalar names content =>
      cases content with
      | null k => exact .missing
      | text form content =>
          cases form <;> cases kind <;> simp [Allows, admits, admitsKind, Value.isNull, Value.kind,
            Scalar.isNull, Scalar.kind, TextForm.kind, Kind.isNumeric, Kind.isText] at hallows hkind
          all_goals exact .text
      | int n | float x | decimal d =>
          have hnumeric : kind.isNumeric = true := by
            cases kind <;> simp [Allows, admits, admitsKind, Value.isNull, Value.kind,
              Scalar.isNull, Scalar.kind, Kind.isText] at hallows hkind
            all_goals rfl
          exact .number hnumeric rfl
      | _ =>
          cases kind <;> simp [Allows, admits, admitsKind, Value.isNull, Value.kind,
            Scalar.isNull, Scalar.kind, Kind.isNumeric, Kind.isText] at hallows hkind
          all_goals first | exact .bool | exact .timestamp | exact .duration
  | sequence names form items =>
      cases form <;> cases kind <;> simp [Allows, admits, admitsKind, Value.isNull,
        Value.kind, SequenceForm.kind, Kind.isNumeric, Kind.isText] at hallows hkind
  | struct names fields =>
      cases kind <;> simp [Allows, admits, admitsKind, Value.isNull,
        Value.kind, Kind.isNumeric, Kind.isText] at hallows hkind

theorem eq_of_accepts {kind wanted : StaticKind} (haccepts : kind.accepts wanted = true)
    (hdefinite : kind ≠ .any) (hplain : wanted.isNumeric = false) : kind = wanted := by
  cases kind <;> cases wanted <;> simp_all [accepts, isNumeric]

theorem isNumeric_of_arithmetic {kind kind' result : StaticKind}
    (hkinds : kind.arithmetic kind' = some result) (hdefinite : kind ≠ .any)
    (hdefinite' : kind' ≠ .any) : kind.isNumeric = true ∧ kind'.isNumeric = true := by
  unfold arithmetic at hkinds
  split at hkinds
  · simp_all
  · cases hkinds

end StaticKind

/-! ## One operation -/

namespace Value.Of

variable {kind kind' : StaticKind} {v v' : Value}

theorem numeric (hv : v.Of kind) (hkind : kind.isNumeric = true) :
    v.isNull = true ∨ ∃ a, v.numeric? = some a := by
  cases hv with
  | missing => exact Or.inl rfl
  | number _ ha => exact Or.inr ⟨_, ha⟩
  | _ => cases hkind

theorem bool_of_present (hv : v.Of .bool) (hpresent : v.isNull = false) :
    ∃ names b, v = .scalar names (.bool b) := by
  cases hv with
  | missing => cases hpresent
  | bool => exact ⟨_, _, rfl⟩
  | number hkind => cases hkind

theorem timestamp_of_present (hv : v.Of .timestamp) (hpresent : v.isNull = false) :
    ∃ names t, v = .scalar names (.timestamp t) := by
  cases hv with
  | missing => cases hpresent
  | timestamp => exact ⟨_, _, rfl⟩
  | number hkind => cases hkind

theorem duration_of_present (hv : v.Of .duration) (hpresent : v.isNull = false) :
    ∃ names d, v = .scalar names (.duration d) := by
  cases hv with
  | missing => cases hpresent
  | duration => exact ⟨_, _, rfl⟩
  | number hkind => cases hkind

theorem text_of_present (hv : v.Of .string) (hpresent : v.isNull = false) :
    ∃ names form content, v = .scalar names (.text form content) := by
  cases hv with
  | missing => cases hpresent
  | text => exact ⟨_, _, _, rfl⟩
  | number hkind => cases hkind

theorem truth (hv : v.Of .bool) (fault : Value → Mismatch) :
    ∃ b, Expression.operandTruth fault v = .ok b := by
  cases hv with
  | missing => exact ⟨none, rfl⟩
  | bool => exact ⟨some _, rfl⟩
  | number hkind => cases hkind

theorem text? (hv : v.Of .string) : v.isNull = true ∨ ∃ content, v.text? = some content := by
  cases hv with
  | missing => exact Or.inl rfl
  | text => exact Or.inr ⟨_, rfl⟩
  | number hkind => cases hkind

/-- Numbers have an order unless one of them is a float that is no number. -/
theorem compareTo_of_numeric {a b : Numeric} (ha : v.numeric? = some a) (hb : v'.numeric? = some b) :
    (∃ o, v.compareTo v' = .ok o) ∨
      ∃ x y : Binary64, v.compareTo v' = .error (.unordered x y) ∧ (x = .nan ∨ y = .nan) := by
  simp only [compareTo, ha, hb, compareNumbers]
  cases a.coerce b with
  | int x y => exact Or.inl ⟨_, rfl⟩
  | decimal x y => exact Or.inl ⟨_, rfl⟩
  | float x y =>
      cases horder : x.compare? y with
      | some o => exact Or.inl ⟨o, by simp only [horder]⟩
      | none =>
          refine Or.inr ⟨x, y, by simp only [horder], ?_⟩
          cases x <;> cases y <;> simp_all [Binary64.compare?]

/-- Present values of comparable kinds have an order, unless one of them is a float that is no
number. -/
theorem compareTo (hv : v.Of kind) (hv' : v'.Of kind') (hpresent : v.isNull = false)
    (hpresent' : v'.isNull = false) (hkinds : kind.comparable kind' = true) (hkind : kind ≠ .any)
    (hkind' : kind' ≠ .any) :
    (∃ o, v.compareTo v' = .ok o) ∨
      ∃ x y : Binary64, v.compareTo v' = .error (.unordered x y) ∧ (x = .nan ∨ y = .nan) := by
  -- Kinds are comparable if both are numeric or if they are the same.
  have hcases : (kind.isNumeric = true ∧ kind'.isNumeric = true) ∨
      (kind = kind' ∧ kind.isNumeric = false) := by
    cases kind <;> cases kind' <;> simp_all [StaticKind.comparable, StaticKind.isNumeric]
  rcases hcases with ⟨hnumeric, hnumeric'⟩ | ⟨rfl, hplain⟩
  · rcases hv.numeric hnumeric with hnull | ⟨a, ha⟩
    · simp [hnull] at hpresent
    · rcases hv'.numeric hnumeric' with hnull | ⟨b, hb⟩
      · simp [hnull] at hpresent'
      · exact compareTo_of_numeric ha hb
  · left
    cases hv with
    | missing => cases hpresent
    | number hnumeric => simp [hnumeric] at hplain
    | bool =>
        obtain ⟨_, _, rfl⟩ := hv'.bool_of_present hpresent'
        exact ⟨_, rfl⟩
    | timestamp =>
        obtain ⟨_, _, rfl⟩ := hv'.timestamp_of_present hpresent'
        exact ⟨_, rfl⟩
    | duration =>
        obtain ⟨_, _, rfl⟩ := hv'.duration_of_present hpresent'
        exact ⟨_, rfl⟩
    | text =>
        obtain ⟨_, _, _, rfl⟩ := hv'.text_of_present hpresent'
        exact ⟨_, rfl⟩

end Value.Of

namespace Expression

variable {v v' : Value}

theorem negate_eq_ok (hv : v.Of .bool) : ∃ w, negate v = .ok w := by
  obtain ⟨b, hb⟩ := hv.truth .negated
  exact ⟨_, by rw [negate, hb]; rfl⟩

theorem applyLogical_eq_ok (op : LogicalOperator) (hv : v.Of .bool) (hv' : v'.Of .bool) :
    ∃ w, applyLogical op v v' = .ok w := by
  obtain ⟨b, hb⟩ := hv.truth .logical
  obtain ⟨b', hb'⟩ := hv'.truth .logical
  rw [applyLogical, hb, hb']
  cases b <;> cases b' <;> exact ⟨_, rfl⟩

theorem matchTexts_eq_ok (op : MatchOperator) (hv : v.Of .string) (hv' : v'.Of .string) :
    ∃ texts, matchTexts op v v' = .ok texts := by
  unfold matchTexts
  rcases hv.text? with hnull | ⟨content, hcontent⟩
  · simp [hnull]
  · rcases hv'.text? with hnull | ⟨content', hcontent'⟩
    · simp [hnull]
    · simp only [hcontent, hcontent']
      split <;> exact ⟨_, rfl⟩

theorem firstText_eq_ok (hv : v.Of .string) : ∃ text, firstText v = .ok text := by
  unfold firstText
  rcases hv.text? with hnull | ⟨content, hcontent⟩
  · cases v.text? <;> simp [hnull]
  · simp [hcontent]

theorem carries_eq_ok (subject : Value) (hv : v.Of .string) : ∃ w, carries subject v = .ok w := by
  unfold carries
  rcases hv.text? with hnull | ⟨content, hcontent⟩
  · cases v.text? <;> simp [hnull]
  · simp [hcontent]

end Expression

/-! ## Arithmetic -/

/-- A computation that says of no value that it has the wrong kind. -/
def NoMismatch {α : Type} (result : Except EvalError α) : Prop :=
  ∀ cause, result ≠ .error (.mismatch cause)

theorem NoMismatch.map {α β : Type} {result : Except EvalError α} (hresult : NoMismatch result)
    (f : α → β) : NoMismatch (f <$> result) :=
  fun cause herror => hresult cause (map_eq_error herror)

namespace ArithmeticOperator

theorem noMismatch_powInt (a b : Int) : NoMismatch (powInt a b) := by
  intro cause herror
  unfold powInt at herror
  split_ifs at herror <;> cases herror

theorem noMismatch_applyInt (op : ArithmeticOperator) (a b : Int) :
    NoMismatch (op.applyInt a b) := by
  intro cause herror
  cases op with
  | power => exact noMismatch_powInt a b cause herror
  | divide | modulus =>
      simp only [applyInt] at herror
      split_ifs at herror
      cases herror
  | _ => cases herror

theorem noMismatch_applyDecimal (op : ArithmeticOperator) (a b : Decimal) :
    NoMismatch (op.applyDecimal a b) := by
  intro cause herror
  cases op with
  | divide | modulus | power =>
      simp only [applyDecimal] at herror
      split at herror
      · cases herror
      · split at herror <;> cases herror
  | _ =>
      simp only [applyDecimal] at herror
      split at herror <;> cases herror

theorem noMismatch_applyFloat (op : ArithmeticOperator) (a b : Binary64) :
    NoMismatch (op.applyFloat a b) := by
  intro cause herror
  unfold applyFloat at herror
  split_ifs at herror
  cases herror

theorem noMismatch_applyNumbers (op : ArithmeticOperator) (a b : Numeric) :
    NoMismatch (op.applyNumbers a b) := by
  unfold applyNumbers
  cases a.coerce b with
  | int x y => exact (noMismatch_applyInt op x y).map _
  | float x y => exact (noMismatch_applyFloat op x y).map _
  | decimal x y => exact (noMismatch_applyDecimal op x y).map _

/-- Arithmetic takes all numbers. -/
theorem noMismatch_apply (op : ArithmeticOperator) (static : StaticKind) {kind kind' : StaticKind}
    {v v' : Value} (hv : v.Of kind) (hv' : v'.Of kind') (hkind : kind.isNumeric = true)
    (hkind' : kind'.isNumeric = true) : NoMismatch (op.apply static v v') := by
  unfold apply
  rcases hv.numeric hkind with hnull | ⟨a, ha⟩
  · simp [hnull, NoMismatch]
  · rcases hv'.numeric hkind' with hnull | ⟨b, hb⟩
    · simp [hnull, NoMismatch]
    · simp only [ha, hb]
      split
      · simp [NoMismatch]
      · exact noMismatch_applyNumbers op a b

end ArithmeticOperator

namespace TemporalOperator

/-- The definite kinds of the operands of sums and differences with times. -/
theorem operands_of_temporal {op : TemporalOperator} {kind kind' result : StaticKind}
    (hkinds : StaticKind.temporal op kind kind' = some result) (hkind : kind ≠ .any)
    (hkind' : kind' ≠ .any) :
    (kind = .timestamp ∧ kind' = .duration) ∨
      (op = .subtract ∧ kind = .timestamp ∧ kind' = .timestamp) ∨
      (kind = .duration ∧ kind' = .duration) := by
  cases op <;> cases kind <;> cases kind' <;> simp_all [StaticKind.temporal]

/-- Sums and differences with times take all times whose kinds are in the table. -/
theorem noMismatch_apply {op : TemporalOperator} (static : StaticKind)
    {kind kind' result : StaticKind} {v v' : Value} (hv : v.Of kind) (hv' : v'.Of kind')
    (hkinds : StaticKind.temporal op kind kind' = some result) (hkind : kind ≠ .any)
    (hkind' : kind' ≠ .any) : NoMismatch (op.apply static v v') := by
  unfold apply
  split
  · simp [NoMismatch]
  · rename_i hpresent
    rw [Bool.or_eq_true, not_or, Bool.not_eq_true, Bool.not_eq_true] at hpresent
    obtain ⟨hpresent, hpresent'⟩ := hpresent
    -- A sum or a difference may be out of range, which says nothing of a kind.
    rcases operands_of_temporal hkinds hkind hkind' with ⟨rfl, rfl⟩ | ⟨rfl, rfl, rfl⟩ | ⟨rfl, rfl⟩
    · obtain ⟨_, _, rfl⟩ := hv.timestamp_of_present hpresent
      obtain ⟨_, _, rfl⟩ := hv'.duration_of_present hpresent'
      intro cause herror
      cases op <;> dsimp only at herror <;> split at herror <;> cases herror
    · obtain ⟨_, _, rfl⟩ := hv.timestamp_of_present hpresent
      obtain ⟨_, _, rfl⟩ := hv'.timestamp_of_present hpresent'
      simp [NoMismatch]
    · obtain ⟨_, _, rfl⟩ := hv.duration_of_present hpresent
      obtain ⟨_, _, rfl⟩ := hv'.duration_of_present hpresent'
      intro cause herror
      cases op <;> dsimp only at herror <;> split at herror <;> cases herror

end TemporalOperator

/-! ## Comparisons -/

namespace Expression

/-- What may be wrong with a comparison of present values. -/
def Unordered (error : EvalError) : Prop :=
  ∃ x y : Binary64, error = .mismatch (.incomparable (.unordered x y)) ∧ (x = .nan ∨ y = .nan)

/-- Two values that can be compared unless one is missing. -/
def Comparable (v v' : Value) : Prop :=
  v.isNull = false → v'.isNull = false →
    ∀ error, order v v' = .error error → Unordered error

theorem comparable_of {kind kind' : StaticKind} {v v' : Value} (hv : v.Of kind) (hv' : v'.Of kind')
    (hkinds : kind.comparable kind' = true) (hkind : kind ≠ .any) (hkind' : kind' ≠ .any) :
    Comparable v v' := by
  intro hpresent hpresent' error herror
  unfold order at herror
  rcases hv.compareTo hv' hpresent hpresent' hkinds hkind hkind' with ⟨o, ho⟩ | ⟨x, y, hxy, hnan⟩
  · rw [ho] at herror
    cases herror
  · rw [hxy] at herror
    cases herror
    exact ⟨x, y, rfl, hnan⟩

theorem relate_fails {op : RelationalOperator} {v v' : Value} (hcomparable : Comparable v v')
    {error : EvalError} (herror : relate op v v' = .error error) : Unordered error := by
  unfold relate at herror
  split at herror
  · cases herror
  · rename_i hpresent
    rw [Bool.or_eq_true, not_or, Bool.not_eq_true, Bool.not_eq_true] at hpresent
    rcases bind_eq_error herror with horder | ⟨o, _, hdone⟩
    · exact hcomparable hpresent.1 hpresent.2 error horder
    · cases hdone

theorem memberOf_fails {subject : Value} {vs : List Value} (hpresent : subject.isNull = false)
    (hcomparable : ∀ v ∈ vs, Comparable subject v) {error : EvalError}
    (herror : memberOf subject vs = .error error) : Unordered error := by
  induction vs with
  | nil => cases herror
  | cons v rest ih =>
      rw [List.forall_mem_cons] at hcomparable
      unfold memberOf at herror
      split at herror
      · rcases bind_eq_error herror with hrest | ⟨found, _, hdone⟩
        · exact ih hcomparable.2 hrest
        · split at hdone <;> cases hdone
      · rename_i hv
        rw [Bool.not_eq_true] at hv
        rcases bind_eq_error herror with horder | ⟨o, _, hnext⟩
        · exact hcomparable.1 hpresent hv error horder
        · split at hnext
          · cases hnext
          · exact ih hcomparable.2 hnext

theorem isMember_fails {subject : Value} {vs : List Value}
    (hcomparable : ∀ v ∈ vs, Comparable subject v) {error : EvalError}
    (herror : isMember subject vs = .error error) : Unordered error := by
  unfold isMember at herror
  split at herror
  · cases herror
  · rename_i hpresent
    rw [Bool.not_eq_true] at hpresent
    exact memberOf_fails hpresent hcomparable herror

theorem isBetween_fails {subject lower upper : Value} (hlower : Comparable subject lower)
    (hupper : Comparable subject upper) {error : EvalError}
    (herror : isBetween subject lower upper = .error error) : Unordered error := by
  rcases bind_eq_error herror with habove | ⟨above, _, herror⟩
  · exact relate_fails hlower habove
  · rcases bind_eq_error herror with hbelow | ⟨below, _, hdone⟩
    · exact relate_fails hupper hbelow
    · cases above <;> cases below <;> cases hdone

end Expression

end DocQuery
