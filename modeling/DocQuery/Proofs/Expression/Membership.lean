import DocQuery.Proofs.Expression.Sessions
import DocQuery.Proofs.Value.Order

/-!
# Membership and ranges from relations

A value is a member of others as far as it equals one of them, and lies in a range as far as it is
neither below nor above.  Both follow from the relations: membership is the disjunction of the
equalities, unknown where an equality is unknown and none holds, and a range is the conjunction of
two comparisons.  Only the order of the work differs: membership stops at the first equal value, so
that what cannot be compared counts only before it.

Main names:

* `outcome_bind` — outcomes from kept patterns are those of steps without a store;
* `anyOf` — the disjunction of answers that may be unknown;
* `memberOf_eq_anyOf`, `memberOf_fails_iff` — membership where all can be compared, and in general;
* `isBetween_eq_and`, `not_isBetween_eq_or` — ranges;
* `memberships_and_ranges` — the same of expressions.
-/

namespace DocQuery

open Regex (Cache)

/-! ## Outcomes of evaluations -/

/-- The outcome of two steps is that of the second one after that of the first. -/
theorem outcome_bind {ε σ α β : Type} {keeps : σ → Prop} {x : ExceptT ε (StateM σ) α}
    {f : α → ExceptT ε (StateM σ) β} {g : α → Except ε β} {s : σ} (hs : keeps s)
    (hx : Steady keeps x) (hf : ∀ a, Steady keeps (f a)) (hg : ∀ a, outcome (f a) s = g a) :
    outcome (x >>= f) s = outcome x s >>= g := by
  have hyields := hx.yields hs
  cases hfirst : outcome x s with
  | ok a =>
      rw [hfirst] at hyields
      exact ((yields_bind hyields ((hf a).yields hs)).outcome_eq hs).trans (hg a)
  | error e =>
      rw [hfirst] at hyields
      exact (yields_bind_error f hyields).outcome_eq hs

theorem Evaluation.steady_lift {α : Type} (result : Except EvalError α) :
    Steady Cache.Faithful (Evaluation.lift result) :=
  DocQuery.steady_lift result

theorem Evaluation.outcome_lift {α : Type} (result : Except EvalError α) (cache : Cache) :
    outcome (Evaluation.lift result) cache = result := rfl

namespace Expression

/-! ## Answers -/

/-- Whether one of several answers is yes.  Without a yes it is unknown where an answer is, or where
`unknown` says so. -/
def anyOf (unknown : Bool) (answers : List (Option Bool)) : Option Bool :=
  if some true ∈ answers then some true
  else if unknown = true ∨ none ∈ answers then none
  else some false

theorem anyOf_true (unknown : Bool) (answers : List (Option Bool)) :
    anyOf unknown (some true :: answers) = some true := by
  simp [anyOf]

theorem anyOf_false (unknown : Bool) (answers : List (Option Bool)) :
    anyOf unknown (some false :: answers) = anyOf unknown answers := by
  simp [anyOf]

/-- What an unknown answer leaves of the others: only a yes. -/
def onlyYes (found : Option Bool) : Option Bool :=
  if found = some true then some true else none

theorem anyOf_none (answers : List (Option Bool)) :
    anyOf false (none :: answers) = onlyYes (anyOf false answers) := by
  by_cases hyes : some true ∈ answers
  · simp [anyOf, onlyYes, hyes]
  · by_cases hunknown : none ∈ answers <;> simp [anyOf, onlyYes, hyes, hunknown]

/-- Neither the order of the answers nor how often one is given matters. -/
theorem anyOf_congr {answers answers' : List (Option Bool)}
    (hsame : ∀ a, a ∈ answers ↔ a ∈ answers') (unknown : Bool) :
    anyOf unknown answers = anyOf unknown answers' := by
  unfold anyOf
  rw [if_congr (hsame (some true)) rfl rfl]
  simp only [hsame none]

theorem truth_injective : Function.Injective truth := by
  intro a b htruth
  rcases a with _ | a <;> rcases b with _ | b <;> cases htruth <;> rfl

/-! ## Membership -/

variable {x v : Value} {vs : List Value}

/-- A value that cannot be compared with the subject stands before every equal one. -/
def Obstructed (x : Value) (vs : List Value) : Prop :=
  ∃ before v after, vs = before ++ v :: after ∧ v.isNull = false ∧
    (∃ cause, x.compareTo v = .error cause) ∧ ∀ u ∈ before, relate .equal x u ≠ .ok (some true)

/-- The first step of a search, and the equality with the first value: a missing value is passed
over and leaves only a yes, an equal one ends the search, another one is passed over, and what
cannot be compared is an error. -/
theorem memberOf_cons_cases (hx : x.isNull = false) (v : Value) (vs : List Value) :
    (v.isNull = true ∧ relate .equal x v = .ok none ∧
      memberOf x (v :: vs) = onlyYes <$> memberOf x vs) ∨
    (v.isNull = false ∧ relate .equal x v = .ok (some true) ∧
      memberOf x (v :: vs) = .ok (some true)) ∨
    (v.isNull = false ∧ relate .equal x v = .ok (some false) ∧
      memberOf x (v :: vs) = memberOf x vs) ∨
    (v.isNull = false ∧ ∃ cause, x.compareTo v = .error cause ∧
      relate .equal x v = .error (.mismatch (.incomparable cause)) ∧
      memberOf x (v :: vs) = .error (.mismatch (.incomparable cause))) := by
  have hrelate := relate_cases x v
  -- A missing candidate is passed over, but leaves at most a yes.
  cases hv : v.isNull with
  | true =>
      have hstep : memberOf x (v :: vs) = onlyYes <$> memberOf x vs := by
        rw [memberOf, if_pos hv]
        rcases memberOf x vs with _ | (_ | _ | _) <;> rfl
      exact Or.inl ⟨rfl, by simp [relate, hv], hstep⟩
  | false =>
      rw [hx, hv] at hrelate
      have hpresent : ¬ v.isNull = true := by simp [hv]
      rcases hrelate with ⟨hnull, _⟩ | ⟨_, ⟨order, horder, hrelate⟩ | ⟨cause, hcause, hrelate⟩⟩
      · cases hnull
      · have hequal := hrelate .equal
        rw [memberOf, if_neg hpresent, Expression.order, horder]
        cases order with
        | eq => exact Or.inr (Or.inl ⟨rfl, hequal, rfl⟩)
        | lt | gt => exact Or.inr (Or.inr (Or.inl ⟨rfl, hequal, rfl⟩))
      · refine Or.inr (Or.inr (Or.inr ⟨rfl, cause, hcause, hrelate .equal, ?_⟩))
        rw [memberOf, if_neg hpresent, Expression.order, hcause]
        rfl

/-- Where all can be compared, a search finds the disjunction of the equalities. -/
theorem memberOf_eq_anyOf (hx : x.isNull = false) {answers : List (Option Bool)}
    (hanswers : List.Forall₂ (fun v a => relate .equal x v = .ok a) vs answers) :
    memberOf x vs = .ok (anyOf false answers) := by
  induction hanswers with
  | nil => rfl
  | @cons v a vs answers ha _ ih =>
      rcases memberOf_cons_cases hx v vs with
        ⟨_, hrelate, hstep⟩ | ⟨_, hrelate, hstep⟩ | ⟨_, hrelate, hstep⟩ | ⟨_, cause, _, hrelate, _⟩
      · cases ha.symm.trans hrelate
        rw [hstep, ih, anyOf_none]
        rfl
      · cases ha.symm.trans hrelate
        rw [hstep, anyOf_true]
      · cases ha.symm.trans hrelate
        rw [hstep, ih, anyOf_false]
      · cases ha.symm.trans hrelate

theorem isMember_eq_anyOf {answers : List (Option Bool)}
    (hanswers : List.Forall₂ (fun v a => relate .equal x v = .ok a) vs answers) :
    isMember x vs = .ok (anyOf x.isNull answers) := by
  cases hx : x.isNull with
  | false =>
      rw [isMember, hx, if_neg Bool.false_ne_true]
      exact memberOf_eq_anyOf hx hanswers
  | true =>
      -- A missing value equals nothing, so that there is no yes among the answers.
      have hnone : some true ∉ answers := by
        intro hmem
        obtain ⟨v, _, hv⟩ := exists_of_forall₂ hanswers.flip hmem
        rw [relate, hx] at hv
        cases hv
      rw [isMember, hx, if_pos rfl, anyOf, if_neg hnone, if_pos (Or.inl rfl)]

theorem not_obstructed_nil (x : Value) : ¬ Obstructed x [] := by
  rintro ⟨before, v, after, hnil, _⟩
  simp at hnil

/-- A first value is passed over if it can be compared and is not equal. -/
theorem obstructed_cons_iff (hne : relate .equal x v ≠ .ok (some true))
    (hpassed : v.isNull = true ∨ ∀ cause, x.compareTo v ≠ .error cause) :
    Obstructed x (v :: vs) ↔ Obstructed x vs := by
  constructor
  · rintro ⟨_ | ⟨u, before⟩, w, after, hsplit, hw, hcause, hbefore⟩
    · obtain ⟨rfl, rfl⟩ := List.cons.inj hsplit
      obtain ⟨cause, hcause⟩ := hcause
      rcases hpassed with hnull | hcompared
      · rw [hnull] at hw
        cases hw
      · exact absurd hcause (hcompared cause)
    · obtain ⟨rfl, rfl⟩ := List.cons.inj hsplit
      exact ⟨before, w, after, rfl, hw, hcause, (List.forall_mem_cons.mp hbefore).2⟩
  · rintro ⟨before, w, after, rfl, hw, hcause, hbefore⟩
    exact ⟨v :: before, w, after, rfl, hw, hcause, List.forall_mem_cons.mpr ⟨hne, hbefore⟩⟩

/-- A search fails where something that cannot be compared stands before every equal value. -/
theorem memberOf_fails_iff (hx : x.isNull = false) (vs : List Value) :
    (∃ e, memberOf x vs = .error e) ↔ Obstructed x vs := by
  induction vs with
  | nil => exact iff_of_false (fun ⟨_, he⟩ => by cases he) (not_obstructed_nil x)
  | cons v vs ih =>
      -- The first candidate is missing, equal, different, or cannot be compared.
      rcases memberOf_cons_cases hx v vs with ⟨hv, hrelate, hstep⟩ | ⟨hv, hrelate, hstep⟩ |
        ⟨hv, hrelate, hstep⟩ | ⟨hv, cause, hcause, _, hstep⟩
      · rw [obstructed_cons_iff (by simp [hrelate]) (Or.inl hv), ← ih, hstep]
        cases memberOf x vs <;> simp
      · rw [hstep]
        refine iff_of_false (fun ⟨_, he⟩ => by cases he) ?_
        rintro ⟨_ | ⟨u, before⟩, w, after, hsplit, _, ⟨cause, hcause⟩, hbefore⟩
        · obtain ⟨rfl, rfl⟩ := List.cons.inj hsplit
          rw [relate, hx, hv, Expression.order, hcause] at hrelate
          cases hrelate
        · obtain ⟨rfl, rfl⟩ := List.cons.inj hsplit
          exact (List.forall_mem_cons.mp hbefore).1 hrelate
      · have hcompared : ∀ cause, x.compareTo v ≠ .error cause := by
          intro cause hcause
          rw [relate, hx, hv, Expression.order, hcause] at hrelate
          cases hrelate
        rw [obstructed_cons_iff (by simp [hrelate]) (Or.inr hcompared), ← ih, hstep]
      · exact iff_of_true ⟨_, hstep⟩ ⟨[], v, vs, rfl, hv, ⟨cause, hcause⟩, by simp⟩

theorem isMember_fails_iff (x : Value) (vs : List Value) :
    (∃ e, isMember x vs = .error e) ↔ x.isNull = false ∧ Obstructed x vs := by
  cases hx : x.isNull with
  | false =>
      rw [isMember, hx, if_neg Bool.false_ne_true, memberOf_fails_iff hx vs, and_iff_right rfl]
  | true =>
      rw [isMember, hx, if_pos rfl]
      exact iff_of_false (fun ⟨_, he⟩ => by cases he) (fun h => Bool.false_ne_true h.1.symm)

/-! ## Ranges -/

/-- A range is a conjunction of comparisons. -/
theorem isBetween_eq_and (x lower upper : Value) :
    answer false <$> isBetween x lower upper = (do
      let above ← truth <$> relate .greaterOrEqual x lower
      let below ← truth <$> relate .lessOrEqual x upper
      applyLogical .and above below) := by
  unfold isBetween
  rcases relate .greaterOrEqual x lower with e | (_ | a)
  · rfl
  all_goals
    rcases relate .lessOrEqual x upper with e | (_ | b)
    · rfl
    · rfl
    · first
        | rfl
        | cases a <;> cases b <;> rfl

/-- What is not in a range is below or above it. -/
theorem not_isBetween_eq_or (x lower upper : Value) :
    answer true <$> isBetween x lower upper = (do
      let below ← truth <$> relate .lessThan x lower
      let above ← truth <$> relate .greaterThan x upper
      applyLogical .or below above) := by
  rw [show relate .lessThan x lower = _ from relate_complement .greaterOrEqual x lower,
    show relate .greaterThan x upper = _ from relate_complement .lessOrEqual x upper]
  unfold isBetween
  rcases relate .greaterOrEqual x lower with e | (_ | a)
  · rfl
  all_goals
    rcases relate .lessOrEqual x upper with e | (_ | b)
    · rfl
    · rfl
    · first
        | rfl
        | cases a <;> cases b <;> rfl

/-! ## Expressions -/

/-- The value of an expression, or why it has none, while these patterns are kept. -/
def result (context : Context) (cache : Cache) (e : Expression) : Except EvalError Value :=
  outcome (evaluate context e) cache

section Results

variable (context : Context) {cache : Cache} (hcache : cache.Faithful)

include hcache

theorem result_negation (operand : Expression) :
    result context cache (.negation operand) = result context cache operand >>= negate := by
  rw [result, evaluate]
  exact outcome_bind hcache (steady_evaluate context operand)
    (fun v => Evaluation.steady_lift _) fun v => Evaluation.outcome_lift _ _

/-- Two operands are evaluated one after the other, then combined. -/
theorem outcome_operands (combine : Value → Value → Except EvalError Value)
    (left right : Expression) :
    outcome (do
      let a ← evaluate context left
      let b ← evaluate context right
      Evaluation.lift (combine a b)) cache = (do
      let a ← result context cache left
      let b ← result context cache right
      combine a b) :=
  outcome_bind hcache (steady_evaluate context left)
    (fun _ => steady_bind (steady_evaluate context right) fun _ => Evaluation.steady_lift _)
    fun _ => outcome_bind hcache (steady_evaluate context right)
      (fun _ => Evaluation.steady_lift _) fun _ => Evaluation.outcome_lift _ _

theorem result_relational (op : RelationalOperator) (left right : Expression) :
    result context cache (.relational op left right) = (do
      let a ← result context cache left
      let b ← result context cache right
      truth <$> relate op a b) := by
  rw [result, evaluate]
  exact outcome_operands context hcache (fun a b => truth <$> relate op a b) left right

theorem result_logical (op : LogicalOperator) (left right : Expression) :
    result context cache (.logical op left right) = (do
      let a ← result context cache left
      let b ← result context cache right
      applyLogical op a b) := by
  rw [result, evaluate]
  exact outcome_operands context hcache (applyLogical op) left right

theorem result_range (subject lower upper : Expression) (negated : Bool) :
    result context cache (.range subject lower upper negated) = (do
      let v ← result context cache subject
      let a ← result context cache lower
      let b ← result context cache upper
      answer negated <$> isBetween v a b) := by
  rw [result, evaluate]
  exact outcome_bind hcache (steady_evaluate context subject)
    (fun v => steady_bind (steady_evaluate context lower) fun a =>
      steady_bind (steady_evaluate context upper) fun b => Evaluation.steady_lift _)
    fun v => outcome_operands context hcache (fun a b => answer negated <$> isBetween v a b)
      lower upper

theorem outcome_evaluateAll (es : List Expression) :
    outcome (evaluateAll context es) cache = es.mapM (result context cache) := by
  induction es with
  | nil => rfl
  | cons e rest ih =>
      rw [evaluateAll, List.mapM_cons, ← ih]
      exact outcome_bind hcache (steady_evaluate context e)
        (fun v => steady_bind (steady_evaluateAll context rest) fun vs => steady_pure _)
        fun v => outcome_bind hcache (steady_evaluateAll context rest)
          (fun vs => steady_pure _) fun vs => rfl

theorem result_membership (subject : Expression) (candidates : List Expression) (negated : Bool) :
    result context cache (.membership subject candidates negated) = (do
      let v ← result context cache subject
      let vs ← candidates.mapM (result context cache)
      answer negated <$> isMember v vs) := by
  rw [result, evaluate, ← outcome_evaluateAll context hcache]
  exact outcome_bind hcache (steady_evaluate context subject)
    (fun v => steady_bind (steady_evaluateAll context candidates) fun vs =>
      Evaluation.steady_lift _)
    fun v => outcome_bind hcache (steady_evaluateAll context candidates)
      (fun vs => Evaluation.steady_lift _) fun vs => Evaluation.outcome_lift _ _

/-- A relation has a value where both sides have one and an answer. -/
theorem exists_answer_of_relational {op : RelationalOperator} {left right : Expression} {w : Value}
    (hw : result context cache (.relational op left right) = .ok w) :
    ∃ x y a, result context cache left = .ok x ∧ result context cache right = .ok y ∧
      relate op x y = .ok a ∧ truth a = w := by
  rw [result_relational context hcache] at hw
  obtain ⟨x, hx, hw⟩ := bind_eq_ok hw
  obtain ⟨y, hy, hw⟩ := bind_eq_ok hw
  obtain ⟨a, ha, hw⟩ := map_eq_ok hw
  exact ⟨x, y, a, hx, hy, ha, hw⟩

/-- The candidates have values where the equalities with the subject have answers. -/
theorem exists_values_of_answers {subject : Expression} {x : Value}
    (hx : result context cache subject = .ok x) {candidates : List Expression}
    {answers : List (Option Bool)}
    (hanswers : List.Forall₂
      (fun c a => result context cache (.relational .equal subject c) = .ok (truth a))
      candidates answers) :
    ∃ vs, candidates.mapM (result context cache) = .ok vs ∧
      List.Forall₂ (fun v a => relate .equal x v = .ok a) vs answers := by
  induction hanswers with
  | nil => exact ⟨[], rfl, .nil⟩
  | @cons c a candidates answers ha _ ih =>
      obtain ⟨vs, hvs, hall⟩ := ih
      obtain ⟨x', v, a', hx', hv, ha', htruth⟩ := exists_answer_of_relational context hcache ha
      cases hx.symm.trans hx'
      obtain rfl := truth_injective htruth
      exact ⟨v :: vs, by rw [List.mapM_cons, hv, hvs]; rfl, .cons ha' hall⟩

/-- Membership is the disjunction of the equalities, where these have answers. -/
theorem result_membership_of_answers {subject : Expression} {x : Value}
    (hx : result context cache subject = .ok x) {candidates : List Expression}
    {answers : List (Option Bool)}
    (hanswers : List.Forall₂
      (fun c a => result context cache (.relational .equal subject c) = .ok (truth a))
      candidates answers) :
    result context cache (.membership subject candidates false) =
      .ok (truth (anyOf x.isNull answers)) := by
  obtain ⟨vs, hvs, hall⟩ := exists_values_of_answers context hcache hx hanswers
  have hmember : answer false <$> isMember x vs = .ok (truth (anyOf x.isNull answers)) := by
    rw [isMember_eq_anyOf hall]
    rcases anyOf x.isNull answers with _ | _ | _ <;> rfl
  rw [result_membership context hcache, hx, hvs]
  exact hmember

/-- It fails, where the subject and the candidates have values, if one that cannot be compared
stands before every equal one. -/
theorem result_membership_fails_iff {subject : Expression} {x : Value}
    (hx : result context cache subject = .ok x) {candidates : List Expression} {vs : List Value}
    (hvs : List.Forall₂ (fun c v => result context cache c = .ok v) candidates vs) :
    (∃ e, result context cache (.membership subject candidates false) = .error e) ↔
      x.isNull = false ∧ Obstructed x vs := by
  rw [result_membership context hcache, hx, mapM_of_forall₂ hvs, ← isMember_fails_iff x vs]
  show (∃ e, answer false <$> isMember x vs = .error e) ↔ _
  cases isMember x vs <;> simp

/-- Candidates in another order, or given more than once, make no difference where the equalities
have answers. -/
theorem result_membership_congr {subject : Expression} {candidates candidates' : List Expression}
    (hsame : ∀ c, c ∈ candidates ↔ c ∈ candidates')
    (hanswers : ∀ c ∈ candidates, ∃ v,
      result context cache (.relational .equal subject c) = .ok v) :
    result context cache (.membership subject candidates false) =
      result context cache (.membership subject candidates' false) := by
  cases hx : result context cache subject with
  | error e =>
      -- An equality with a subject that has no value has no answer either, so there is none.
      have hnil : candidates = [] := by
        refine List.eq_nil_iff_forall_not_mem.mpr fun c hc => ?_
        obtain ⟨w, hw⟩ := hanswers c hc
        obtain ⟨x, _, _, hx', _⟩ := exists_answer_of_relational context hcache hw
        cases hx.symm.trans hx'
      subst hnil
      rw [List.eq_nil_iff_forall_not_mem.mpr fun c hc => List.not_mem_nil ((hsame c).mpr hc)]
  | ok x =>
      have htruth : ∀ c ∈ candidates, ∃ a,
          result context cache (.relational .equal subject c) = .ok (truth a) := by
        intro c hc
        obtain ⟨w, hw⟩ := hanswers c hc
        obtain ⟨_, _, a, _, _, _, rfl⟩ := exists_answer_of_relational context hcache hw
        exact ⟨a, hw⟩
      choose! f hf using htruth
      have hall (cs : List Expression) (hcs : ∀ c ∈ cs, c ∈ candidates) : List.Forall₂
          (fun c a => result context cache (.relational .equal subject c) = .ok (truth a))
          cs (cs.map f) := by
        rw [List.forall₂_map_right_iff, List.forall₂_same]
        exact fun c hc => hf c (hcs c hc)
      have hanswer : ∀ a, a ∈ candidates.map f ↔ a ∈ candidates'.map f := by
        simp [hsame]
      rw [result_membership_of_answers context hcache hx (hall candidates fun c hc => hc),
        result_membership_of_answers context hcache hx (hall candidates' fun c => (hsame c).mpr),
        anyOf_congr hanswer]

/-- What is not a member: the opposite answer, and none where there is none. -/
theorem result_not_membership (subject : Expression) (candidates : List Expression) :
    result context cache (.membership subject candidates true) =
      result context cache (.negation (.membership subject candidates false)) := by
  rw [result_negation context hcache, result_membership context hcache,
    result_membership context hcache]
  cases result context cache subject with
  | error e => rfl
  | ok x =>
      cases candidates.mapM (result context cache) with
      | error e => rfl
      | ok vs =>
          show answer true <$> isMember x vs = (answer false <$> isMember x vs) >>= negate
          rcases isMember x vs with _ | _ | _ | _ <;> rfl

/-- A range has a value where both of its comparisons have one, if it is an operation on these. -/
theorem result_range_iff {negated : Bool} {op : LogicalOperator} {first second : RelationalOperator}
    (hrange : ∀ x lower upper, answer negated <$> isBetween x lower upper = (do
      let a ← truth <$> relate first x lower
      let b ← truth <$> relate second x upper
      applyLogical op a b))
    (subject lower upper : Expression) (v : Value) :
    result context cache (.range subject lower upper negated) = .ok v ↔
      result context cache (.logical op (.relational first subject lower)
        (.relational second subject upper)) = .ok v := by
  rw [result_range context hcache, result_logical context hcache, result_relational context hcache,
    result_relational context hcache]
  cases result context cache subject with
  | error e => exact Iff.rfl
  | ok x =>
      cases result context cache lower with
      | error e => exact Iff.rfl
      | ok a =>
          cases result context cache upper with
          | error e =>
              -- The first comparison may fail before the upper bound does.
              show Except.error e = .ok v ↔
                (truth <$> relate first x a >>= fun _ => .error e) = .ok v
              cases relate first x a <;> exact iff_of_false nofun nofun
          | ok b =>
              show answer negated <$> isBetween x a b = .ok v ↔ _
              rw [hrange]
              exact Iff.rfl

end Results

/-- Membership and ranges follow from the relations.  Where the equalities of a subject with the
candidates have answers, membership is their disjunction: yes if one is, else unknown if one is or if
the subject is missing, else no; so neither the order of the candidates nor their repetition matters.
In general membership fails, where all have values, if the subject is not missing and a value that
is not missing but cannot be compared stands before every equal one.  What is not a member has the
opposite answer.  A range has a value where its two comparisons have values, and then the
conjunction of these; what is not in a range is below or above it. -/
theorem memberships_and_ranges (context : Context) {cache : Cache} (hcache : cache.Faithful)
    (subject lower upper : Expression) (candidates : List Expression) :
    (∀ x answers, result context cache subject = .ok x →
      List.Forall₂ (fun c a => result context cache (.relational .equal subject c) = .ok (truth a))
        candidates answers →
      result context cache (.membership subject candidates false) =
        .ok (truth (anyOf x.isNull answers))) ∧
    (∀ candidates', (∀ c, c ∈ candidates ↔ c ∈ candidates') →
      (∀ c ∈ candidates, ∃ v, result context cache (.relational .equal subject c) = .ok v) →
      result context cache (.membership subject candidates false) =
        result context cache (.membership subject candidates' false)) ∧
    (∀ x vs, result context cache subject = .ok x →
      List.Forall₂ (fun c v => result context cache c = .ok v) candidates vs →
      ((∃ e, result context cache (.membership subject candidates false) = .error e) ↔
        x.isNull = false ∧ Obstructed x vs)) ∧
    result context cache (.membership subject candidates true) =
      result context cache (.negation (.membership subject candidates false)) ∧
    (∀ v, result context cache (.range subject lower upper false) = .ok v ↔
      result context cache (.logical .and (.relational .greaterOrEqual subject lower)
        (.relational .lessOrEqual subject upper)) = .ok v) ∧
    (∀ v, result context cache (.range subject lower upper true) = .ok v ↔
      result context cache (.logical .or (.relational .lessThan subject lower)
        (.relational .greaterThan subject upper)) = .ok v) :=
  ⟨fun _ _ hx hanswers => result_membership_of_answers context hcache hx hanswers,
    fun _ hsame hanswers => result_membership_congr context hcache hsame hanswers,
    fun _ _ hx hvs => result_membership_fails_iff context hcache hx hvs,
    result_not_membership context hcache subject candidates,
    result_range_iff context hcache isBetween_eq_and subject lower upper,
    result_range_iff context hcache not_isBetween_eq_or subject lower upper⟩

/-- Whether one is among two and something missing is unknown; a text before it is an error. -/
theorem memberships_and_ranges_unknown :
    let context : Context := ⟨.empty, none, default⟩
    let one : Expression := .constant (.int 1)
    let missing : Expression := .constant (.null .null)
    (Cache.new 0).Faithful ∧
      result context (.new 0) (.membership one [.constant (.int 2), missing] false) =
        .ok (.null .bool) ∧
      ∃ e, result context (.new 0) (.membership one [.constant (.string "a"), one] false) =
        .error e := by
  intro context one missing
  have hcache := Cache.faithful_new 0
  obtain ⟨hanswers, _⟩ := memberships_and_ranges context hcache one one one
    [.constant (.int 2), missing]
  obtain ⟨_, _, hfails, _⟩ := memberships_and_ranges context hcache one one one
    [.constant (.string "a"), one]
  refine ⟨hcache, hanswers (.int 1) [some false, none] rfl (.cons rfl (.cons rfl .nil)), ?_⟩
  refine (hfails (.int 1) [.string "a", .int 1] rfl (.cons rfl (.cons rfl .nil))).mpr ⟨rfl, ?_⟩
  exact ⟨[], _, _, rfl, rfl, ⟨_, rfl⟩, by simp⟩

end Expression

end DocQuery
