import DocQuery.Proofs.Expression.Checked
import DocQuery.Proofs.Expression.Operands
import Mathlib.Data.List.Forall2
import Mathlib.Logic.Relation

/-!
# Kind safety

The checks before an evaluation and those within it are made with different tables.  This module
proves that they agree: where every part of an expression has a definite kind, no operator rejects
its operands when the expression is evaluated.  What is left are paths that lead into a container of
the wrong form, and comparisons with a float that is no number.

Main names:

* `Expression.FullyTyped` — every part has a definite kind;
* `Mismatch.Excused` — what is left to go wrong;
* `Reference.stuck_of_follow` — how a path fails;
* `Expression.safe_of_checked` — one case for each way of building an expression;
* `Expression.excused_of_fullyTyped` — the result.
-/

namespace DocQuery

open Number

/-! ## Parts -/

namespace Expression

/-- The expressions that an expression is made of directly. -/
def parts : Expression → List Expression
  | constant _ | now | reference _ | key | existence _ | kindTest _ _ _ => []
  | negation operand => [operand]
  | arithmetic _ left right | relational _ left right | logical _ left right
  | temporal _ left right => [left, right]
  | membership subject candidates _ => subject :: candidates
  | range subject lower upper _ => [subject, lower, upper]
  | matching _ subject argument => [subject, argument]
  | concatenation arguments => arguments
  | annotationTest subject name => [subject, name]

/-- `Within e part` says that an expression is part of another one, or that one itself. -/
def Within : Expression → Expression → Prop :=
  Relation.ReflTransGen fun e part => part ∈ e.parts

/-- Whether no part of an expression has an open kind. What `exists` and `is` ask about is no
part: it may have any kind. -/
def FullyTyped (e : Expression) : Prop :=
  ∀ part, Within e part → part.kind ≠ .any

/-- The reference that an expression looks up itself. -/
def reference? : Expression → Option Reference
  | reference r | existence r | kindTest r _ _ => some r
  | _ => none

theorem FullyTyped.part {e part : Expression} (htyped : FullyTyped e) (hpart : part ∈ e.parts) :
    FullyTyped part :=
  fun inner hinner => htyped inner (Relation.ReflTransGen.head hpart hinner)

theorem FullyTyped.of_parts {e : Expression} (hkind : e.kind ≠ .any)
    (hparts : ∀ part ∈ e.parts, FullyTyped part) : FullyTyped e := by
  intro inner hinner
  rcases Relation.ReflTransGen.cases_head hinner with rfl | ⟨part, hpart, hinner⟩
  · exact hkind
  · exact hparts part hpart inner hinner

theorem FullyTyped.kind_ne {e : Expression} (htyped : FullyTyped e) : e.kind ≠ .any :=
  htyped e .refl

end Expression

/-- What may go wrong with the kinds of values where every part of an expression has a definite
kind. -/
inductive Mismatch.Excused (context : Context) (e : Expression) : Mismatch → Prop
  /-- A path of the expression leads to a container from which its next step cannot select. -/
  | path {part : Expression} {r : Reference} {selector : Selector} {container : Value}
      (hpart : e.Within part) (hr : part.reference? = some r)
      (hselector : selector.apply container =
        .error (.mismatch (.cannotSelect selector container.kind)))
      (hfollow : r.follow context = .error (.mismatch (.cannotSelect selector container.kind))) :
      Excused context e (.cannotSelect selector container.kind)
  /-- A float that is no number is compared. -/
  | unordered {x y : Binary64} (hnan : x = .nan ∨ y = .nan) :
      Excused context e (.incomparable (.unordered x y))

/-- What is excused in a part is excused in the whole. -/
theorem Mismatch.Excused.of_part {context : Context} {e part : Expression} {cause : Mismatch}
    (hpart : part ∈ e.parts) (hcause : Excused context part cause) : Excused context e cause := by
  cases hcause with
  | path hinner hr hselector hfollow =>
      exact .path (Relation.ReflTransGen.head hpart hinner) hr hselector hfollow
  | unordered hnan => exact .unordered hnan

/-- A failure that is excused, if it says that a value has the wrong kind. -/
def EvalError.Excused (context : Context) (e : Expression) (error : EvalError) : Prop :=
  ∀ cause, error = .mismatch cause → cause.Excused context e

/-! ## References -/

/-- The failure of a selector on a container from which it cannot select. -/
def Selector.Stuck (selector : Selector) (container : Value) (error : EvalError) : Prop :=
  selector.apply container = .error error ∧
    error = .mismatch (.cannotSelect selector container.kind)

theorem Selector.stuck_of_apply {selector : Selector} {container : Value} {error : EvalError}
    (herror : selector.apply container = .error error) : selector.Stuck container error := by
  refine ⟨herror, ?_⟩
  unfold apply at herror
  split at herror
  · cases herror
  · cases herror
  · cases herror
  · split at herror <;> cases herror
    rfl

/-- A path that fails has met a container from which a step cannot select. -/
theorem Step.stuck_of_follow {step : Step} {rest : List Step} {v : Value} {error : EvalError}
    (herror : step.follow rest v = .error error) :
    ∃ (selector : Selector) (container : Value), selector.Stuck container error := by
  induction rest generalizing step v with
  | nil =>
      rw [follow] at herror
      rcases bind_eq_error herror with happly | ⟨found, _, hnext⟩
      · exact ⟨_, _, Selector.stuck_of_apply happly⟩
      · cases found <;> cases hnext
  | cons next rest ih =>
      rw [follow] at herror
      rcases bind_eq_error herror with happly | ⟨found, _, hnext⟩
      · exact ⟨_, _, Selector.stuck_of_apply happly⟩
      · cases found with
        | none => cases hnext
        | some v' => exact ih hnext

namespace Reference

variable {context : Context} {r : Reference} {cause : Mismatch}

theorem stuck_of_follow (herror : r.follow context = .error (.mismatch cause)) :
    ∃ (selector : Selector) (container : Value), selector.Stuck container (.mismatch cause) := by
  rcases bind_eq_error herror with hstart | ⟨v, _, hselect⟩
  · unfold start at hstart
    split at hstart
    · cases hstart
    · split at hstart <;> cases hstart
  · split at hselect
    · cases hselect
    · exact Step.stuck_of_follow hselect

/-- The value of a reference fails with a wrong kind only where its path does. -/
theorem follow_of_value (herror : r.value context = .error (.mismatch cause)) :
    r.follow context = .error (.mismatch cause) := by
  rcases bind_eq_error herror with hfollow | ⟨selection, _, hfound⟩
  · exact hfollow
  · cases selection with
    | hit container v =>
        simp only [conform] at hfound
        split_ifs at hfound
        cases hfound
    | fallback container => cases hfound
    | miss container => cases hfound

theorem follow_of_value? (herror : r.value? context = .error (.mismatch cause)) :
    r.follow context = .error (.mismatch cause) := by
  unfold value? at herror
  split at herror
  · rcases bind_eq_error herror with hfollow | ⟨selection, _, hdone⟩
    · exact hfollow
    · cases selection <;> cases hdone
  · rename_i error hvalue
    split at herror
    · cases herror
    · cases herror
      exact follow_of_value hvalue

theorem follow_of_exists? (herror : r.exists? context = .error (.mismatch cause)) :
    r.follow context = .error (.mismatch cause) := by
  rcases bind_eq_error herror with hvalue | ⟨found, _, hdone⟩
  · exact follow_of_value? hvalue
  · cases found <;> cases hdone

theorem follow_of_passes {test : KindTest}
    (herror : r.passes context test = .error (.mismatch cause)) :
    r.follow context = .error (.mismatch cause) := by
  rcases bind_eq_error herror with hvalue | ⟨found, _, hdone⟩
  · exact follow_of_value? hvalue
  · cases found <;> cases hdone

end Reference

/-! ## Evaluation -/

namespace Expression

variable {context : Context}

theorem excused_of_follow {e : Expression} {r : Reference} (hr : e.reference? = some r)
    {cause : Mismatch} (herror : r.follow context = .error (.mismatch cause)) :
    cause.Excused context e := by
  obtain ⟨selector, container, happly, hcause⟩ := Reference.stuck_of_follow herror
  cases hcause
  exact .path .refl hr happly herror

theorem excused_of_unordered {e : Expression} {error : EvalError} (herror : Unordered error) :
    error.Excused context e := by
  intro cause hcause
  obtain ⟨x, y, rfl, hnan⟩ := herror
  cases hcause
  exact .unordered hnan

/-- The values of a fully typed expression look as its kind says. -/
theorem gives_of (context : Context) {e : Expression} (htyped : FullyTyped e) :
    Gives (evaluate context e) fun v => v.Of e.kind := by
  intro cache cache' v hrun
  exact (evaluate_gives context e cache cache' v hrun).allowed.of htyped.kind_ne

/-- Whether nothing goes wrong in an expression but what is excused, if it is fully typed. -/
def Safe (context : Context) (e : Expression) : Prop :=
  FullyTyped e → Fails (evaluate context e) (EvalError.Excused context e)

/-- A part is evaluated: what goes wrong in it is excused in the whole, and its value looks as its
definite kind says. -/
theorem fails_part {β : Type} {e part : Expression} (htyped : FullyTyped e) (hpart : part ∈ e.parts)
    (hsafe : Safe context part) {f : Value → Evaluation β}
    (hf : ∀ v, part.kind ≠ .any → v.Of part.kind → Fails (f v) (EvalError.Excused context e)) :
    Fails (evaluate context part >>= f) (EvalError.Excused context e) := by
  have htyped' := htyped.part hpart
  refine fails_bind ?_ (gives_of context htyped') fun v hv => hf v htyped'.kind_ne hv
  exact (hsafe htyped').imp fun _ herror cause hcause => (herror cause hcause).of_part hpart

/-- Parts are evaluated one after the other. -/
theorem fails_parts {β : Type} {e : Expression} {es : List Expression} (htyped : FullyTyped e)
    (hparts : ∀ part ∈ es, part ∈ e.parts) (hsafe : ∀ part ∈ es, Safe context part)
    {f : List Value → Evaluation β}
    (hf : ∀ vs, List.Forall₂ (fun part v => kind part ≠ .any ∧ v.Of (kind part)) es vs →
      Fails (f vs) (EvalError.Excused context e)) :
    Fails (evaluateAll context es >>= f) (EvalError.Excused context e) := by
  induction es generalizing f with
  | nil =>
      rw [evaluateAll]
      exact fails_bind (fails_pure _) (gives_pure .nil) hf
  | cons part rest ih =>
      rw [List.forall_mem_cons] at hparts hsafe
      rw [evaluateAll, bind_assoc]
      refine fails_part htyped hparts.1 hsafe.1 fun v hkind hv => ?_
      rw [bind_assoc]
      refine ih hparts.2 hsafe.2 fun vs hvs => ?_
      rw [pure_bind]
      exact hf (v :: vs) (.cons ⟨hkind, hv⟩ hvs)

/-- A last step that always succeeds. -/
theorem fails_of_ok {holds : EvalError → Prop} {α : Type} {result : Except EvalError α}
    (hresult : ∃ a, result = .ok a) : Fails (Evaluation.lift result) holds := by
  obtain ⟨a, rfl⟩ := hresult
  exact fails_lift fun error herror => by cases herror

theorem fails_of_noMismatch {e : Expression} {α : Type} {result : Except EvalError α}
    (hresult : NoMismatch result) :
    Fails (Evaluation.lift result) (EvalError.Excused context e) := by
  refine fails_lift fun error herror cause hcause => ?_
  rw [hcause] at herror
  exact absurd herror (hresult cause)

theorem fails_of_unordered {e : Expression} {α β : Type} {result : Except EvalError α} {f : α → β}
    (hresult : ∀ error, result = .error error → Unordered error) :
    Fails (Evaluation.lift (f <$> result)) (EvalError.Excused context e) := by
  refine fails_lift fun error herror => ?_
  exact excused_of_unordered (hresult error (map_eq_error herror))

/-- A pattern is found or is no regular expression. -/
theorem fails_matchPattern {e : Expression} (op : MatchOperator) (argument : Expression)
    (wanted : String) :
    Fails (matchPattern op argument wanted) (EvalError.Excused context e) := by
  unfold matchPattern
  split
  · split
    · exact fails_pure _
    · exact fails_of_noMismatch (fun cause herror => by cases herror)
  · intro cache cache' error hrun cause hcause
    simp only [Evaluation.compile, ExceptT.run, ExceptT.mk, StateT.run] at hrun
    split at hrun
    · cases hrun
    · cases hrun
      cases hcause

/-- The values of candidates can be compared with that of their subject. -/
theorem comparable_all {kind : StaticKind} {v : Value} {candidates : List Expression}
    {vs : List Value} (hv : v.Of kind) (hkind : kind ≠ .any)
    (hkinds : ∀ c ∈ candidates, kind.comparable c.kind = true)
    (hvs : List.Forall₂ (fun c w => Expression.kind c ≠ .any ∧ w.Of (Expression.kind c))
      candidates vs) :
    ∀ w ∈ vs, Comparable v w := by
  induction hvs with
  | nil => simp
  | cons hfirst _ ih =>
      rw [List.forall_mem_cons] at hkinds ⊢
      exact ⟨comparable_of hv hfirst.2 hkinds.1 hkind hfirst.1, ih hkinds.2⟩

/-! ### One case for each way of building an expression -/

theorem safe_reference (r : Reference) : Safe context (reference r) := by
  intro _
  rw [evaluate]
  refine fails_lift fun error herror cause hcause => ?_
  rw [hcause] at herror
  exact excused_of_follow rfl (Reference.follow_of_value herror)

theorem safe_existence (r : Reference) : Safe context (existence r) := by
  intro _
  rw [evaluate]
  refine fails_lift fun error herror cause hcause => ?_
  rw [hcause] at herror
  exact excused_of_follow rfl (Reference.follow_of_exists? (map_eq_error herror))

theorem safe_kindTest (r : Reference) (test : KindTest) (negated : Bool) :
    Safe context (kindTest r test negated) := by
  intro _
  rw [evaluate]
  refine fails_lift fun error herror cause hcause => ?_
  rw [hcause] at herror
  exact excused_of_follow rfl (Reference.follow_of_passes (map_eq_error herror))

theorem safe_negation {operand e : Expression} (hoperand : Safe context operand)
    (he : ofNegation operand = .ok e) : Safe context e := by
  obtain ⟨rfl, haccepts⟩ := ofNegation_eq_ok he
  intro htyped
  rw [evaluate]
  refine fails_part htyped (by simp [parts]) hoperand fun v hkind hv => ?_
  rw [StaticKind.eq_of_accepts haccepts hkind rfl] at hv
  exact fails_of_ok (negate_eq_ok hv)

theorem safe_binary {left right e : Expression} {op : BinaryOperator} (hleft : Safe context left)
    (hright : Safe context right) (he : ofBinary left right op = .ok e) : Safe context e := by
  intro htyped
  cases ofBinary_cases he with
  | arithmetic hkinds =>
      rw [evaluate]
      refine fails_part htyped (by simp [parts]) hleft fun v hkind hv =>
        fails_part htyped (by simp [parts]) hright fun v' hkind' hv' => ?_
      obtain ⟨hnumeric, hnumeric'⟩ := StaticKind.isNumeric_of_arithmetic hkinds hkind hkind'
      exact fails_of_noMismatch
        (ArithmeticOperator.noMismatch_apply _ _ hv hv' hnumeric hnumeric')
  | temporal hkinds =>
      rw [evaluate]
      refine fails_part htyped (by simp [parts]) hleft fun v hkind hv =>
        fails_part htyped (by simp [parts]) hright fun v' hkind' hv' => ?_
      exact fails_of_noMismatch
        (TemporalOperator.noMismatch_apply _ hv hv' hkinds hkind hkind')
  | relational hkinds =>
      rw [evaluate]
      refine fails_part htyped (by simp [parts]) hleft fun v hkind hv =>
        fails_part htyped (by simp [parts]) hright fun v' hkind' hv' => ?_
      exact fails_of_unordered fun _ =>
        relate_fails (comparable_of hv hv' hkinds hkind hkind')
  | logical haccepts haccepts' =>
      rw [evaluate]
      refine fails_part htyped (by simp [parts]) hleft fun v hkind hv =>
        fails_part htyped (by simp [parts]) hright fun v' hkind' hv' => ?_
      rw [StaticKind.eq_of_accepts haccepts hkind rfl] at hv
      rw [StaticKind.eq_of_accepts haccepts' hkind' rfl] at hv'
      exact fails_of_ok (applyLogical_eq_ok _ hv hv')

theorem safe_membership {subject e : Expression} {candidates : List Expression} {negated : Bool}
    (hsubject : Safe context subject) (hcandidates : ∀ c ∈ candidates, Safe context c)
    (he : ofMembership subject candidates negated = .ok e) : Safe context e := by
  obtain ⟨rfl, hkinds⟩ := ofMembership_eq_ok he
  intro htyped
  rw [evaluate]
  refine fails_part htyped (by simp [parts]) hsubject fun v hkind hv =>
    fails_parts htyped (fun c hc => by simp [parts, hc]) hcandidates fun vs hvs => ?_
  exact fails_of_unordered fun _ => isMember_fails (comparable_all hv hkind hkinds hvs)

theorem safe_range {subject e : Expression} {bounds : List Expression} {negated : Bool}
    (hsubject : Safe context subject) (hbounds : ∀ b ∈ bounds, Safe context b)
    (he : ofRange subject bounds negated = .ok e) : Safe context e := by
  obtain ⟨lower, upper, rfl, rfl, hlower, hupper⟩ := ofRange_eq_ok he
  intro htyped
  rw [evaluate]
  refine fails_part htyped (by simp [parts]) hsubject fun v hkind hv =>
    fails_part htyped (by simp [parts]) (hbounds lower (by simp)) fun a hkinda ha =>
    fails_part htyped (by simp [parts]) (hbounds upper (by simp)) fun b hkindb hb => ?_
  exact fails_of_unordered fun _ => isBetween_fails (comparable_of hv ha hlower hkind hkinda)
    (comparable_of hv hb hupper hkind hkindb)

theorem safe_matching {op : MatchOperator} {subject argument e : Expression}
    (hsubject : Safe context subject) (hargument : Safe context argument)
    (he : ofMatching op subject argument = .ok e) : Safe context e := by
  obtain ⟨rfl, haccepts, haccepts'⟩ := ofMatching_eq_ok he
  intro htyped
  rw [evaluate]
  refine fails_part htyped (by simp [parts]) hsubject fun v hkind hv =>
    fails_part htyped (by simp [parts]) hargument fun a hkinda ha => ?_
  rw [StaticKind.eq_of_accepts haccepts hkind rfl] at hv
  rw [StaticKind.eq_of_accepts haccepts' hkinda rfl] at ha
  refine fails_bind (fails_of_ok (matchTexts_eq_ok op hv ha)) (gives_true _) fun texts _ => ?_
  cases texts with
  | none => exact fails_pure _
  | some texts =>
      exact fails_bind (fails_matchPattern op argument _) (gives_true _) fun _ _ => fails_pure _

theorem safe_concatenation {arguments : List Expression} {e : Expression}
    (harguments : ∀ a ∈ arguments, Safe context a) (he : ofConcatenation arguments = .ok e) :
    Safe context e := by
  obtain ⟨first, rest, rfl, rfl, haccepts⟩ := ofConcatenation_eq_ok he
  intro htyped
  rw [List.forall_mem_cons] at harguments
  rw [evaluate, evaluateTexts]
  refine fails_part htyped (by simp [parts]) harguments.1 fun v hkind hv => ?_
  rw [StaticKind.eq_of_accepts haccepts hkind rfl] at hv
  refine fails_bind (fails_of_ok (firstText_eq_ok hv)) (gives_true _) fun text _ => ?_
  cases text with
  | none => exact fails_pure _
  | some text =>
      exact fails_parts htyped (fun a ha => by simp [parts, ha]) harguments.2
        fun vs _ => fails_pure _

theorem safe_annotationTest {subject name e : Expression} (hsubject : Safe context subject)
    (hname : Safe context name) (he : ofAnnotationTest subject name = .ok e) :
    Safe context e := by
  obtain ⟨rfl, haccepts⟩ := ofAnnotationTest_eq_ok he
  intro htyped
  rw [evaluate]
  refine fails_part htyped (by simp [parts]) hsubject fun v _ _ =>
    fails_part htyped (by simp [parts]) hname fun n hkind hn => ?_
  rw [StaticKind.eq_of_accepts haccepts hkind rfl] at hn
  exact fails_of_ok (carries_eq_ok v hn)

/-- Checked expressions are safe, in every context. -/
theorem safe_of_checked {e : Expression} (hchecked : Checked e) : Safe context e := by
  induction hchecked with
  | constant v =>
      intro _
      rw [evaluate]
      exact fails_pure v
  | now =>
      intro _
      rw [evaluate]
      exact fails_pure _
  -- A key has no definite kind, so it is no part of a typed expression.
  | key => exact fun htyped => absurd rfl htyped.kind_ne
  | reference r => exact safe_reference r
  | existence r => exact safe_existence r
  | kindTest r test negated => exact safe_kindTest r test negated
  | negation _ he ih => exact safe_negation ih he
  | binary _ _ he ihl ihr => exact safe_binary ihl ihr he
  | membership _ _ he ihs ihc => exact safe_membership ihs ihc he
  | range _ _ he ihs ihb => exact safe_range ihs ihb he
  | matching _ _ he ihs iha => exact safe_matching ihs iha he
  | concatenation _ he ih => exact safe_concatenation ih he
  | annotationTest _ _ he ihs ihn => exact safe_annotationTest ihs ihn he

/-- **Kind safety.** An expression is read from any tree, and every part of it has a definite kind.
Whatever the document, the candidate and the patterns that are kept: if its evaluation fails because
a value has the wrong kind, then a path of the expression has led into a container from which its
next step cannot select, or a float that is no number was compared.  No operator, no match, no
concatenation and no test has rejected its operands. -/
theorem excused_of_fullyTyped {tree : Language.Tree} {patterns patterns' : Regex.Cache}
    {e : Expression} (hread : (ofTree tree).run.run patterns = (.ok e, patterns'))
    (htyped : FullyTyped e) {cache cache' : Regex.Cache} {cause : Mismatch}
    (hrun : (evaluate context e).run.run cache = (.error (.mismatch cause), cache')) :
    cause.Excused context e := by
  have hchecked : Checked e := gives_checked tree patterns patterns' e hread
  exact safe_of_checked hchecked htyped cache cache' (.mismatch cause) hrun cause rfl

/-- The expression `/a as int < 2`, evaluated on a list, which has no property. -/
theorem excused_of_fullyTyped_property_of_list :
    let node (rule : Language.Rule) (text : String) (children : List Language.Tree) :=
      Grammar.Node.mk rule text.toList .first children
    let tree := node .expression "/a as int < 2"
      [node .postfixOperand "/a as int " [node .selection "/a as int"
        [node .path "/a" [node .pathSegment "a" [node .propertySelector "a"
          [node .identifier "a" []]]], node .asKeyword "as" [], node .typeName "int" []]],
        node .lessThan "<" [], node .postfixOperand "2" [node .intLiteral "2" []]]
    let a : Reference := ⟨.document, some ⟨⟨.property (some "a"), true⟩, []⟩, .int⟩
    let e := relational .lessThan (reference a) (constant (.int 2))
    let context : Context := ⟨.list [], none, default⟩
    let cause : Mismatch := .cannotSelect (.property (some "a")) .list
    let none := Regex.Cache.new 0
    (ofTree tree).run.run none = (.ok e, none) ∧ FullyTyped e ∧
      (evaluate context e).run.run none = (.error (.mismatch cause), none) ∧
        cause.Excused context e := by
  intro node tree a e context cause none
  have hread : (ofTree tree).run.run none = (.ok e, none) := by
    rfl
  have htyped : FullyTyped e := by
    refine .of_parts (by decide) ?_
    simp only [e, parts, List.forall_mem_cons, List.not_mem_nil, false_implies, implies_true,
      and_true]
    exact ⟨.of_parts (by decide) (by simp [parts]), .of_parts (by decide) (by simp [parts])⟩
  have hrun : (evaluate context e).run.run none = (.error (.mismatch cause), none) := by
    simp only [e, a, context, evaluate, Reference.value, Reference.follow, Path.select, Step.follow]
    rfl
  exact ⟨hread, htyped, hrun, excused_of_fullyTyped hread htyped hrun⟩

end Expression

end DocQuery
