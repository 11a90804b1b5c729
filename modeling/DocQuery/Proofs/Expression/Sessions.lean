import DocQuery.Expression.Evaluate
import DocQuery.Expression.Reader
import DocQuery.Proofs.Expression.Checked
import DocQuery.Proofs.Regex.Cache
import DocQuery.Proofs.Sequencing

/-!
# Reading and evaluating without regard to the patterns that are kept

Reading and evaluating both look patterns up in a store that they also change.  From a store that
keeps what its patterns read as, neither depends on which patterns are kept: the reader and the
evaluator only ever ask the store, so `Parse.yields_compile` and `Evaluation.yields_compile` are the
two places where the store is looked into.  A session of requests therefore answers as a new store for each request
would, and a pattern that is looked up when a match is read gives what it gives when it is looked
up during evaluation.

Main names:

* `Expression.steady_read`, `Expression.steady_evaluate` — one outcome from all such stores;
* `Request`, `Session.outcomes`, `Session.outcomesAfresh` — what a session answers, and what it
  would with a new store for each request;
* `Session.store_invisible` — the main result.
-/

namespace DocQuery

open Grammar DocQuery.Language Operator

/-! ## Looking patterns up -/

/-- What is looked up is what the pattern reads as. -/
theorem Evaluation.yields_compile (pattern : String) :
    Yields Regex.Cache.Faithful (Evaluation.compile pattern)
      (match Regex.read pattern with
        | some r => .ok r
        | none => .error (.invalidPattern pattern)) := by
  intro cache hcache
  refine ⟨(cache.request pattern).2, Regex.Cache.faithful_request hcache pattern, ?_⟩
  rw [← Regex.Cache.request_eq_read hcache pattern]
  unfold Evaluation.compile
  dsimp only [ExceptT.run, ExceptT.mk, StateT.run]
  rcases cache.request pattern with ⟨_ | r, kept⟩ <;> rfl

theorem Evaluation.steady_compile (pattern : String) :
    Steady Regex.Cache.Faithful (Evaluation.compile pattern) :=
  ⟨_, Evaluation.yields_compile pattern⟩

theorem Parse.yields_compile (pattern : String) :
    Yields Regex.Cache.Faithful (Parse.compile pattern)
      (match Regex.read pattern with
        | some _ => .ok ()
        | none => .error (.pattern pattern)) := by
  intro cache hcache
  refine ⟨(cache.request pattern).2, Regex.Cache.faithful_request hcache pattern, ?_⟩
  rw [← Regex.Cache.request_eq_read hcache pattern]
  unfold Parse.compile
  dsimp only [ExceptT.run, ExceptT.mk, StateT.run]
  rcases cache.request pattern with ⟨_ | r, kept⟩ <;> rfl

/-- A text is not missing. -/
theorem Value.isNull_of_text {v : Value} {text : String} (hv : v.text? = some text) :
    v.isNull = false := by
  unfold Value.text? at hv
  split at hv
  · rfl
  · cases hv

namespace Expression

/-! ## Reading -/

/-- A tree reads alike from all stores, because every step of the reader does. -/
theorem judges_steady :
    Parse.Judges fun x holds =>
      ∃ result, Yields Regex.Cache.Faithful x result ∧ ∀ a, result = .ok a → holds a where
  of_pure := by
    intro α a holds ha
    refine ⟨_, yields_pure a, fun b hb => ?_⟩
    cases hb
    exact ha
  of_lift := fun hresult => ⟨_, yields_lift _, hresult⟩
  of_bind := by
    rintro α β x f holds holds' ⟨result, hx, hresult⟩ hf
    cases result with
    | ok a =>
        obtain ⟨result', hfa, hresult'⟩ := hf a (hresult a rfl)
        exact ⟨result', yields_bind hx hfa, hresult'⟩
    | error e => exact ⟨.error e, yields_bind_error f hx, nofun⟩
  of_compile pattern := ⟨_, Parse.yields_compile pattern, fun _ _ => trivial⟩

theorem steady_ofTree (tree : Tree) : Steady Regex.Cache.Faithful (ofTree tree) := by
  obtain ⟨result, hresult, -⟩ := judges_steady.ofTree tree
  exact ⟨result, hresult⟩

/-- A text reads alike from all stores. -/
theorem steady_read (text : String) : Steady Regex.Cache.Faithful (read text) := by
  unfold read
  refine steady_bind (steady_lift _) fun root => ?_
  cases root.childrenOf .expression with
  | nil => exact steady_lift _
  | cons tree others => exact steady_ofTree tree

/-! ## Evaluating -/

theorem steady_matchPattern (op : MatchOperator) (argument : Expression) (wanted : String) :
    Steady Regex.Cache.Faithful (matchPattern op argument wanted) := by
  unfold matchPattern
  split
  · rename_i pattern _
    split
    · exact steady_pure _
    · exact steady_lift (.error (EvalError.invalidPattern pattern))
  · exact Evaluation.steady_compile _

mutual

/-- An expression evaluates alike from all stores. -/
theorem steady_evaluate (context : Context) :
    ∀ e : Expression, Steady Regex.Cache.Faithful (e.evaluate context)
  | constant v => by
      rw [evaluate]
      exact steady_pure v
  | now => by
      rw [evaluate]
      exact steady_pure _
  | reference r => by
      rw [evaluate]
      exact steady_lift _
  | key => by
      rw [evaluate]
      exact steady_lift _
  | negation operand => by
      rw [evaluate]
      exact steady_bind (steady_evaluate context operand) fun v => steady_lift _
  | existence r => by
      rw [evaluate]
      exact steady_lift _
  | kindTest r test negated => by
      rw [evaluate]
      exact steady_lift _
  | arithmetic op left right => by
      rw [evaluate]
      exact steady_bind (steady_evaluate context left) fun a =>
        steady_bind (steady_evaluate context right) fun b => steady_lift _
  | relational op left right => by
      rw [evaluate]
      exact steady_bind (steady_evaluate context left) fun a =>
        steady_bind (steady_evaluate context right) fun b => steady_lift _
  | logical op left right => by
      rw [evaluate]
      exact steady_bind (steady_evaluate context left) fun a =>
        steady_bind (steady_evaluate context right) fun b => steady_lift _
  | temporal op left right => by
      rw [evaluate]
      exact steady_bind (steady_evaluate context left) fun a =>
        steady_bind (steady_evaluate context right) fun b => steady_lift _
  | membership subject candidates negated => by
      rw [evaluate]
      exact steady_bind (steady_evaluate context subject) fun v =>
        steady_bind (steady_evaluateAll context candidates) fun vs => steady_lift _
  | range subject lower upper negated => by
      rw [evaluate]
      exact steady_bind (steady_evaluate context subject) fun v =>
        steady_bind (steady_evaluate context lower) fun a =>
          steady_bind (steady_evaluate context upper) fun b => steady_lift _
  | matching op subject argument => by
      rw [evaluate]
      refine steady_bind (steady_evaluate context subject) fun v =>
        steady_bind (steady_evaluate context argument) fun a =>
          steady_bind (steady_lift _) fun texts => ?_
      match texts with
      | none => exact steady_pure _
      | some (text, wanted) =>
          exact steady_bind (steady_matchPattern op argument wanted) fun r => steady_pure _
  | concatenation arguments => by
      rw [evaluate]
      exact steady_evaluateTexts context arguments
  | annotationTest subject name => by
      rw [evaluate]
      exact steady_bind (steady_evaluate context subject) fun v =>
        steady_bind (steady_evaluate context name) fun n => steady_lift _

theorem steady_evaluateAll (context : Context) :
    ∀ es : List Expression, Steady Regex.Cache.Faithful (evaluateAll context es)
  | [] => by
      rw [evaluateAll]
      exact steady_pure []
  | e :: rest => by
      rw [evaluateAll]
      exact steady_bind (steady_evaluate context e) fun v =>
        steady_bind (steady_evaluateAll context rest) fun vs => steady_pure _

theorem steady_evaluateTexts (context : Context) :
    ∀ es : List Expression, Steady Regex.Cache.Faithful (evaluateTexts context es)
  | [] => by
      rw [evaluateTexts]
      exact steady_pure _
  | e :: rest => by
      rw [evaluateTexts]
      refine steady_bind (steady_evaluate context e) fun v => steady_bind (steady_lift _) fun first => ?_
      cases first with
      | none => exact steady_pure _
      | some text =>
          exact steady_bind (steady_evaluateAll context rest) fun vs => steady_pure _

end

/-! ## Matches of a constant and of a computed text -/

theorem matchTexts_of_texts (op : MatchOperator) {v w : Value} {text wanted : String}
    (hv : v.text? = some text) (hw : w.text? = some wanted) :
    matchTexts op v w = .ok (some (text, wanted)) := by
  have hnull := Value.isNull_of_text hv
  have hnull' := Value.isNull_of_text hw
  simp [matchTexts, hnull, hnull', hv, hw]

theorem yields_matchTexts (op : MatchOperator) {v w : Value} {text wanted : String}
    (hv : v.text? = some text) (hw : w.text? = some wanted) :
    Yields Regex.Cache.Faithful (Evaluation.lift (matchTexts op v w))
      (.ok (some (text, wanted))) := by
  rw [matchTexts_of_texts op hv hw]
  exact yields_lift _

/-- The pattern of a computed text is looked up during evaluation. -/
theorem yields_matching_computed {op : MatchOperator} {subject argument : Expression}
    {context : Context} {v w : Value} {text wanted : String}
    (hsubject : Yields Regex.Cache.Faithful (subject.evaluate context) (.ok v))
    (hargument : Yields Regex.Cache.Faithful (argument.evaluate context) (.ok w))
    (hv : v.text? = some text) (hw : w.text? = some wanted)
    (hcomputed : fixedPattern? op argument = none) :
    Yields Regex.Cache.Faithful ((matching op subject argument).evaluate context)
      (match Regex.read (op.pattern wanted) with
        | some r => .ok (.bool (r.isMatch text))
        | none => .error (.invalidPattern (op.pattern wanted))) := by
  have hpattern := Evaluation.yields_compile (op.pattern wanted)
  rw [evaluate]
  refine yields_bind hsubject (yields_bind hargument (yields_bind (yields_matchTexts op hv hw) ?_))
  simp only [matchPattern, hcomputed]
  cases hread : Regex.read (op.pattern wanted) with
  | none =>
      rw [hread] at hpattern
      exact yields_bind_error _ hpattern
  | some r =>
      rw [hread] at hpattern
      exact yields_bind hpattern (yields_pure _)

/-- The pattern of a constant text has been looked up before. -/
theorem yields_matching_constant {op : MatchOperator} {subject : Expression} {context : Context}
    {v w : Value} {text wanted : String} {r : Regex}
    (hsubject : Yields Regex.Cache.Faithful (subject.evaluate context) (.ok v))
    (hv : v.text? = some text) (hw : w.text? = some wanted)
    (hread : Regex.read (op.pattern wanted) = some r) :
    Yields Regex.Cache.Faithful ((matching op subject (constant w)).evaluate context)
      (.ok (.bool (r.isMatch text))) := by
  have hfixed : fixedPattern? op (constant w) = some (op.pattern wanted) := by
    rw [fixedPattern?, hw]
    rfl
  have hargument : Yields Regex.Cache.Faithful ((constant w).evaluate context) (.ok w) := by
    rw [evaluate]
    exact yields_pure w
  rw [evaluate]
  refine yields_bind hsubject (yields_bind hargument (yields_bind (yields_matchTexts op hv hw) ?_))
  simp only [matchPattern, hfixed, hread]
  exact yields_bind (yields_pure r) (yields_pure _)

theorem ofMatching_of_accepts (op : MatchOperator) {subject argument : Expression}
    (hsubject : subject.kind.accepts .string = true)
    (hargument : argument.kind.accepts .string = true) :
    ofMatching op subject argument = .ok (matching op subject argument) := by
  unfold ofMatching expect
  rw [if_pos hsubject, if_pos hargument]
  rfl

theorem accepts_constant_text {v : Value} {text : String} (hv : v.text? = some text) :
    (constant v).kind.accepts .string = true := by
  unfold Value.text? at hv
  split at hv
  · rename_i annotations sort content
    cases sort <;> rfl
  · cases hv

/-- A match of a constant text is read where its pattern is. -/
theorem yields_readMatching_constant {op : MatchOperator} {subject : Expression} {w : Value}
    {wanted : String} (hw : w.text? = some wanted)
    (haccepted : ofMatching op subject (constant w) = .ok (matching op subject (constant w))) :
    Yields Regex.Cache.Faithful (readMatching op subject (constant w))
      (match Regex.read (op.pattern wanted) with
        | some _ => .ok (matching op subject (constant w))
        | none => .error (.pattern (op.pattern wanted))) := by
  have hfixed : fixedPattern? op (constant w) = some (op.pattern wanted) := by
    rw [fixedPattern?, hw]
    rfl
  have hchecked : Yields Regex.Cache.Faithful (Parse.checked (ofMatching op subject (constant w)))
      (.ok (matching op subject (constant w))) := by
    rw [haccepted]
    exact yields_lift _
  have hpattern := Parse.yields_compile (op.pattern wanted)
  unfold readMatching
  refine yields_bind hchecked ?_
  simp only [hfixed]
  cases hread : Regex.read (op.pattern wanted) with
  | none =>
      rw [hread] at hpattern
      exact yields_bind_error _ hpattern
  | some r =>
      rw [hread] at hpattern
      exact yields_bind hpattern (yields_pure _)

/-- A match of a computed text is read without its pattern. -/
theorem yields_readMatching_computed {op : MatchOperator} {subject argument : Expression}
    (haccepted : ofMatching op subject argument = .ok (matching op subject argument))
    (hcomputed : fixedPattern? op argument = none) :
    Yields Regex.Cache.Faithful (readMatching op subject argument)
      (.ok (matching op subject argument)) := by
  unfold readMatching
  rw [haccepted, hcomputed]
  exact yields_bind (yields_lift _) (yields_pure _)

end Expression

/-! ## Sessions -/

/-- What a session is asked. -/
inductive Request
  /-- To read an expression. -/
  | read (text : String)
  /-- To evaluate one of the expressions that have been read, by its number. -/
  | evaluate (number : Nat) (context : Context)

/-- What a session answers. -/
inductive Outcome
  | read (result : Except ParseError Expression)
  | evaluated (result : Except EvalError Value)
  /-- There is no expression of this number. -/
  | absent

/-- A session with one parser: the patterns that are kept, and the expressions that have been read. -/
structure Session where
  cache : Regex.Cache
  known : List Expression

namespace Session

/-- A session that has not been asked anything. -/
def new (capacity : Nat) : Session :=
  ⟨.new capacity, []⟩

/-- The answer to a request, and the session after it. -/
def answer (session : Session) : Request → Outcome × Session
  | .read text =>
    match (Expression.read text).run.run session.cache with
    | (.ok e, cache) => (.read (.ok e), ⟨cache, session.known ++ [e]⟩)
    | (.error fault, cache) => (.read (.error fault), ⟨cache, session.known⟩)
  | .evaluate number context =>
    match session.known[number]? with
    | none => (.absent, session)
    | some e =>
      match (e.evaluate context).run.run session.cache with
      | (result, cache) => (.evaluated result, ⟨cache, session.known⟩)

/-- The answers to requests, one after the other. -/
def outcomes (session : Session) : List Request → List Outcome
  | [] => []
  | request :: requests =>
    (session.answer request).1 :: outcomes (session.answer request).2 requests

/-- The answer to a request with a new store of patterns, and the texts of the expressions that have
been read so far. An expression is read again for every evaluation. -/
def answerAfresh (capacity : Nat) (texts : List String) : Request → Outcome × List String
  | .read text =>
    match outcome (Expression.read text) (.new capacity) with
    | .ok e => (.read (.ok e), texts ++ [text])
    | .error fault => (.read (.error fault), texts)
  | .evaluate number context =>
    match texts[number]? with
    | none => (.absent, texts)
    | some text =>
      match (Expression.read text).run.run (.new capacity) with
      | (.ok e, cache) => (.evaluated (outcome (e.evaluate context) cache), texts)
      | (.error fault, _) => (.read (.error fault), texts)

/-- The answers to requests with a new store of patterns for each of them. -/
def outcomesAfresh (capacity : Nat) (texts : List String) : List Request → List Outcome
  | [] => []
  | request :: requests =>
    (answerAfresh capacity texts request).1 ::
      outcomesAfresh capacity (answerAfresh capacity texts request).2 requests

/-- The session knows the expressions that these texts read as, and its store is faithful. -/
structure Follows (session : Session) (texts : List String) : Prop where
  faithful : session.cache.Faithful
  reads : List.Forall₂
    (fun text e => Yields Regex.Cache.Faithful (Expression.read text) (.ok e)) texts session.known

theorem follows_new (capacity : Nat) : (new capacity).Follows [] :=
  ⟨Regex.Cache.faithful_new capacity, .nil⟩

/-- A request is answered as with a new store, and the session stays one that follows. -/
theorem Follows.answer {session : Session} {texts : List String} (hfollows : session.Follows texts)
    (capacity : Nat) (request : Request) :
    (session.answer request).1 = (answerAfresh capacity texts request).1 ∧
      (session.answer request).2.Follows (answerAfresh capacity texts request).2 := by
  obtain ⟨hfaithful, hreads⟩ := hfollows
  unfold Session.answer answerAfresh
  cases request with
  | read text =>
      obtain ⟨result, hread⟩ := Expression.steady_read text
      obtain ⟨kept, hkept, hrun⟩ := hread session.cache hfaithful
      dsimp only
      rw [hrun, hread.outcome_eq (Regex.Cache.faithful_new capacity)]
      cases result with
      | ok e => exact ⟨rfl, hkept, List.rel_append hreads (.cons hread .nil)⟩
      | error fault => exact ⟨rfl, hkept, hreads⟩
  | evaluate number context =>
      dsimp only
      -- There are as many texts as known expressions.
      rcases Nat.lt_or_ge number session.known.length with hlt | hge
      · have hlt' : number < texts.length := hreads.length_eq ▸ hlt
        have hread := hreads.get hlt' hlt
        obtain ⟨fresh, hfresh, hagain⟩ := hread _ (Regex.Cache.faithful_new capacity)
        obtain ⟨result, hvalue⟩ := Expression.steady_evaluate context session.known[number]
        obtain ⟨kept, hkept, hrun⟩ := hvalue session.cache hfaithful
        simp only [List.get_eq_getElem] at hagain
        rw [List.getElem?_eq_getElem hlt, List.getElem?_eq_getElem hlt']
        dsimp only
        rw [hrun, hagain]
        dsimp only
        rw [hvalue.outcome_eq hfresh]
        exact ⟨rfl, hkept, hreads⟩
      · have hge' : texts.length ≤ number := hreads.length_eq ▸ hge
        rw [List.getElem?_eq_none hge, List.getElem?_eq_none hge']
        exact ⟨rfl, hfaithful, hreads⟩

/-- All requests are answered as with new stores, whatever the session has been through. -/
theorem Follows.outcomes_eq {session : Session} {texts : List String}
    (hfollows : session.Follows texts) (capacity : Nat) (requests : List Request) :
    session.outcomes requests = outcomesAfresh capacity texts requests := by
  induction requests generalizing session texts with
  | nil => rfl
  | cons request requests ih =>
      obtain ⟨hfirst, hlater⟩ := hfollows.answer capacity request
      rw [outcomes, outcomesAfresh, hfirst, ih hlater]

end Session

end DocQuery
