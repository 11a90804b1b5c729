import DocQuery.Proofs.Expression.Checked
import DocQuery.Proofs.Expression.Formed
import DocQuery.Proofs.Number.Decimal
import DocQuery.Proofs.Path.Addressable
import DocQuery.Proofs.Regex.Cache
import DocQuery.Proofs.Value.Reread

/-!
# Expressions that were read

An expression that was read holds no value but literals, and no reference but those that a
selection can name; every operation has passed its check, and every fixed pattern has been found to
be a regular expression. `Built` gathers what is known of such an expression.

Main names:

* `Scalar.IsLiteral`, `Reference.Selects` — what constants and references are;
* `Expression.Built` — what was read, by its operations;
* `Expression.secures_built` — whatever is read is built.
-/

namespace DocQuery

open Grammar DocQuery.Language Operator Number Time

/-- A scalar that a literal in an expression can have. -/
def Scalar.IsLiteral : Scalar → Prop
  | .timestamp t => t.Plain
  | .decimal d => d.readBack = d
  | .text form _ => form = .string
  | .blob _ | .clob _ => False
  | _ => True

theorem Scalar.isLiteral_ofTree {tree : Tree} {content : Scalar} (htree : Grown grammar tree)
    (hrule : tree.rule ∈ literalRules) (hread : ofTree tree = .ok content) :
    content.IsLiteral := by
  have hother : tree.rule ≠ .identifier := by
    intro hidentifier
    rw [hidentifier] at hrule
    exact absurd hrule (by decide)
  have hlegible := legible_ofTree htree hother hread
  unfold ofTree at hread
  split at hread
  case h_1 =>
    unfold readNull at hread
    split at hread
    · cases hread
      trivial
    · split at hread <;> cases hread
      trivial
  case h_2 | h_3 | h_4 =>
    cases hread
    trivial
  case h_5 =>
    split at hread
    · rename_i d hd
      cases hread
      exact Decimal.readBack_of_read hd
    · cases hread
  case h_6 | h_7 | h_8 =>
    split at hread <;> cases hread
    exact hlegible
  case h_9 =>
    split at hread <;> cases hread
    trivial
  case h_10 =>
    obtain ⟨name, _, hname⟩ := bind_eq_ok hread
    cases hname
    rfl
  -- There are no symbols among literals.
  case h_11 hsymbol =>
    rw [hsymbol] at hrule
    exact absurd hrule (by decide)
  case h_12 hidentifier => exact absurd hidentifier hother
  case h_13 => cases hread

/-- A reference that a selection names: one into the document has a path, and indices fit. -/
structure Reference.Selects (r : Reference) : Prop where
  path_of_document : r.origin = .document → r.path ≠ none
  addressable : ∀ p, r.path = some p → p.Addressable

theorem Reference.selects_ofTree {tree : Tree} {r : Reference} (hr : ofTree tree = .ok r) :
    r.Selects := by
  unfold ofTree at hr
  split at hr
  -- A reference to the candidate need not have a path.
  · split at hr
    · cases hr
    · dsimp only at hr
      split at hr
      · obtain ⟨path, hpath, hr⟩ := bind_eq_ok hr
        obtain ⟨expected, _, hr⟩ := bind_eq_ok hr
        cases hr
        cases hpath
        exact ⟨nofun, nofun⟩
      · obtain ⟨path, hpath, hr⟩ := bind_eq_ok hr
        obtain ⟨expected, _, hr⟩ := bind_eq_ok hr
        cases hr
        obtain ⟨found, hfound, rfl⟩ := map_eq_ok hpath
        refine ⟨nofun, fun p hp => ?_⟩
        cases hp
        exact Path.addressable_of_ofTree hfound
  · split at hr
    · cases hr
    · obtain ⟨path, hpath, hr⟩ := bind_eq_ok hr
      obtain ⟨expected, _, hr⟩ := bind_eq_ok hr
      cases hr
      refine ⟨fun _ => nofun, fun p hp => ?_⟩
      cases hp
      exact Path.addressable_of_ofTree hpath

namespace Expression

/-- An expression as it is read. -/
inductive Built : Expression → Prop
  | constant {content : Scalar} (hcontent : content.IsLiteral) :
      Built (.constant (.scalar [] content))
  | now : Built .now
  | reference {r : Reference} (hr : r.Selects) : Built (.reference r)
  | key : Built .key
  | existence {r : Reference} (hr : r.Selects) : Built (.existence r)
  | kindTest {r : Reference} (hr : r.Selects) (test : KindTest) (negated : Bool) :
      Built (.kindTest r test negated)
  | negation {operand : Expression} (hoperand : Built operand)
      (he : ofNegation operand = .ok (.negation operand)) : Built (.negation operand)
  | binary {left right e : Expression} {op : BinaryOperator} (hleft : Built left)
      (hright : Built right) (he : ofBinary left right op = .ok e) : Built e
  | membership {subject : Expression} {candidates : List Expression} {negated : Bool}
      (hsubject : Built subject) (hsome : candidates ≠ []) (hcandidates : ∀ c ∈ candidates, Built c)
      (he : ofMembership subject candidates negated = .ok (.membership subject candidates negated)) :
      Built (.membership subject candidates negated)
  | range {subject lower upper : Expression} {negated : Bool} (hsubject : Built subject)
      (hlower : Built lower) (hupper : Built upper)
      (he : ofRange subject [lower, upper] negated = .ok (.range subject lower upper negated)) :
      Built (.range subject lower upper negated)
  | matching {op : MatchOperator} {subject argument : Expression} (hsubject : Built subject)
      (hargument : Built argument)
      (he : ofMatching op subject argument = .ok (.matching op subject argument))
      (hpattern : ∀ pattern, fixedPattern? op argument = some pattern →
        (Regex.read pattern).isSome = true) : Built (.matching op subject argument)
  | concatenation {first : Expression} {others : List Expression}
      (harguments : ∀ a ∈ first :: others, Built a)
      (he : ofConcatenation (first :: others) = .ok (.concatenation (first :: others))) :
      Built (.concatenation (first :: others))
  | annotationTest {subject name : Expression} (hsubject : Built subject) (hname : Built name)
      (he : ofAnnotationTest subject name = .ok (.annotationTest subject name)) :
      Built (.annotationTest subject name)

/-! ## Reading -/

/-- From a store that keeps what the patterns read as, every expression that is read is built. -/
abbrev SecuresBuilt (x : Parse Expression) : Prop :=
  Secures Regex.Cache.Faithful x Built

theorem secures_checked {α : Type} {result : Except KindFault α} {holds : α → Prop}
    (hresult : ∀ a, result = .ok a → holds a) :
    Secures Regex.Cache.Faithful (Parse.checked result) holds :=
  secures_lift fun a ha => hresult a (ok_of_mapError ha)

theorem secures_compile (pattern : String) :
    Secures Regex.Cache.Faithful (Parse.compile pattern)
      fun _ => (Regex.read pattern).isSome = true := by
  intro cache cache' _ hcache hrun
  have hanswer := Regex.Cache.request_eq_read hcache pattern
  have hfaithful := Regex.Cache.faithful_request hcache pattern
  unfold Parse.compile at hrun
  dsimp only [ExceptT.run, ExceptT.mk, StateT.run] at hrun
  rcases hrequest : cache.request pattern with ⟨_ | regex, kept⟩
  · rw [hrequest] at hrun
    cases hrun
  · rw [hrequest] at hrun hanswer hfaithful
    cases hrun
    refine ⟨hfaithful, ?_⟩
    rw [← hanswer]
    rfl

theorem secures_readMatching {op : MatchOperator} {subject argument : Expression}
    (hsubject : Built subject) (hargument : Built argument) :
    SecuresBuilt (readMatching op subject argument) := by
  unfold readMatching
  refine secures_bind (secures_checked fun e he => he) fun e he => ?_
  obtain ⟨rfl, _⟩ := ofMatching_eq_ok he
  cases hfixed : fixedPattern? op argument with
  | some pattern =>
      refine secures_bind (secures_compile pattern) fun _ hpattern => secures_pure ?_
      refine .matching hsubject hargument he fun pattern' heq => ?_
      rw [hfixed] at heq
      cases heq
      exact hpattern
  | none =>
      refine secures_pure (.matching hsubject hargument he fun pattern' heq => ?_)
      rw [hfixed] at heq
      cases heq

theorem secures_readKindTest (subject : Tree) (name : List Char) (negated : Bool) :
    SecuresBuilt (Parse.lift (readKindTest subject name negated)) := by
  refine secures_lift fun e he => ?_
  unfold readKindTest at he
  split at he
  case h_3 => cases he
  all_goals
    obtain ⟨r, hr, htest⟩ := bind_eq_ok he
    split at htest
    · cases htest
      exact .kindTest (Reference.selects_ofTree hr) _ negated
    · cases htest

theorem secures_readAll {arguments : List Tree}
    (harguments : ∀ a ∈ arguments, SecuresBuilt (ofTree a)) :
    Secures Regex.Cache.Faithful (readAll arguments) fun es =>
      es.length = arguments.length ∧ ∀ e ∈ es, Built e := by
  induction arguments with
  | nil =>
      rw [readAll]
      exact secures_pure ⟨rfl, by simp⟩
  | cons a arguments ih =>
      obtain ⟨hfirst, hothers⟩ := List.forall_mem_cons.mp harguments
      rw [readAll]
      refine secures_bind hfirst fun e he => secures_bind (ih hothers) fun es hes => secures_pure ?_
      exact ⟨by simp [hes.1], List.forall_mem_cons.mpr ⟨he, hes.2⟩⟩

theorem secures_readItems {parts : List Tree}
    (hparts : ∀ part ∈ parts, operatorOf? part.rule = none → SecuresBuilt (ofTree part)) :
    Secures Regex.Cache.Faithful (readItems parts) fun items =>
      ∀ e, .operand e ∈ items → Built e := by
  induction parts with
  | nil =>
      rw [readItems]
      exact secures_pure (by simp)
  | cons part parts ih =>
      obtain ⟨hfirst, hothers⟩ := List.forall_mem_cons.mp hparts
      cases hop : operatorOf? part.rule with
      | some op =>
          rw [readItems_operator hop]
          refine secures_bind (ih hothers) fun items hitems => secures_pure fun e he => ?_
          rcases List.mem_cons.mp he with heq | he
          · cases heq
          · exact hitems e he
      | none =>
          rw [readItems_operand hop]
          refine secures_bind (hfirst hop) fun e he => secures_bind (ih hothers) fun items hitems =>
            secures_pure fun e' he' => ?_
          rcases List.mem_cons.mp he' with heq | he'
          · cases heq
            exact he
          · exact hitems e' he'

theorem secures_ofItems {items : List (Item Expression BinaryOperator)}
    (hitems : ∀ e, .operand e ∈ items → Built e) : SecuresBuilt (ofItems items) :=
  secures_lift fun _ he => ofItems_keeps .binary hitems he

/-- Whatever is read of a tree of the grammar is built. -/
theorem secures_built {tree : Tree} (htree : Formed tree) : SecuresBuilt (ofTree tree) := by
  -- One case for each shape; what each keeps is what its check has found.
  induction htree with
  | lone text place hoperand ih =>
      rw [ofTree]
      exact ih
  | chain text place hsome hrule hoperand hoperators hrules hoperands ih ihs =>
      rw [ofTree_chain text place hsome]
      exact secures_bind (secures_readItems (forall_operands hoperators ih ihs)) fun _ =>
        secures_ofItems
  | negation text place keyword hoperand ih =>
      rw [ofTree]
      refine secures_bind ih fun operand hoperand => secures_checked fun e he => ?_
      obtain ⟨rfl, _⟩ := ofNegation_eq_ok he
      exact .negation hoperand he
  | existence text place keyword hrule hselection =>
      rw [ofTree]
      refine secures_lift fun e he => ?_
      obtain ⟨r, hr, rfl⟩ := map_eq_ok he
      exact .existence (Reference.selects_ofTree hr)
  | concatenation text text' place place' keyword harguments ih =>
      rw [ofTree]
      refine secures_bind (secures_readAll ih) fun es hes => secures_checked fun e he => ?_
      obtain ⟨first, others, rfl, rfl, _⟩ := ofConcatenation_eq_ok he
      exact .concatenation hes.2 he
  | alone text place hsubject ih =>
      rw [ofTree]
      exact ih
  | typeCheck text text' place place' keyword name hgrown hsubject ih
  | negatedTypeCheck text text' place place' keyword keyword' name hgrown hsubject ih =>
      rw [ofTree, readOperation]
      exact secures_readKindTest _ _ _
  | inOperation text text' text'' place place' place'' keyword hsubject hsome harguments ih ihs
  | notInOperation text text' text'' place place' place'' keyword keyword' hsubject hsome harguments
      ih ihs =>
      rw [ofTree, readOperation]
      refine secures_bind (secures_readAll ihs) fun es hes => secures_bind ih fun subject hsubject =>
        secures_checked fun e he => ?_
      obtain ⟨rfl, _⟩ := ofMembership_eq_ok he
      refine .membership hsubject ?_ hes.2 he
      rintro rfl
      exact hsome (List.length_eq_zero_iff.mp hes.1.symm)
  | betweenOperation text text' text'' place place' place'' keyword hsubject harguments ih ihs
  | notBetweenOperation text text' text'' place place' place'' keyword keyword' hsubject harguments
      ih ihs =>
      rw [ofTree, readOperation]
      refine secures_bind (secures_readAll ihs) fun es hes => secures_bind ih fun subject hsubject =>
        secures_checked fun e he => ?_
      obtain ⟨lower, upper, rfl, rfl, _⟩ := ofRange_eq_ok he
      exact .range hsubject (hes.2 lower (by simp)) (hes.2 upper (by simp)) he
  | matchesOperation text text' place place' keyword hsubject hargument ih ihArgument
  | containsOperation text text' place place' keyword hsubject hargument ih ihArgument
  | startsWithOperation text text' place place' keyword keyword' hsubject hargument ih ihArgument
  | endsWithOperation text text' place place' keyword keyword' hsubject hargument ih ihArgument =>
      rw [ofTree, readOperation]
      exact secures_bind ihArgument fun argument hargument => secures_bind ih fun subject hsubject =>
        secures_readMatching hsubject hargument
  | hasAnnotationOperation text text' place place' keyword keyword' hsubject hname ih ihName =>
      rw [ofTree, readOperation]
      refine secures_bind ihName fun name hname => secures_bind ih fun subject hsubject =>
        secures_checked fun e he => ?_
      obtain ⟨rfl, _⟩ := ofAnnotationTest_eq_ok he
      exact .annotationTest hsubject hname he
  | selection hrule hgrown =>
      rw [ofTree_selection hrule]
      refine secures_lift fun e he => ?_
      obtain ⟨r, hr, rfl⟩ := map_eq_ok he
      exact .reference (Reference.selects_ofTree hr)
  | key text place children =>
      rw [ofTree]
      exact secures_pure .key
  | now text place children =>
      rw [ofTree]
      exact secures_pure .now
  | literal hrule hgrown =>
      rw [ofTree_literal hrule]
      refine secures_lift fun e he => ?_
      obtain ⟨content, hcontent, rfl⟩ := map_eq_ok he
      exact .constant (Scalar.isLiteral_ofTree hgrown hrule hcontent)

/-- From a store that keeps what the patterns read as, an expression that was read is built. -/
theorem secures_read (text : String) : SecuresBuilt (read text) := by
  have hroot : Secures Regex.Cache.Faithful
      (Parse.lift (ParseError.parseTree .expressionRoot text.toList)) fun root =>
        ∃ tree, root.childrenOf .expression = [tree] ∧ Formed tree := by
    refine secures_lift fun root hroot => ?_
    obtain ⟨tree, _, _, htrees, hgrown, hrule⟩ := root_of_parseTree .expression (by decide) hroot
    exact ⟨tree, htrees, formed_of_grown hgrown (by rw [hrule]; decide)⟩
  unfold read
  refine secures_bind hroot fun root htree => ?_
  obtain ⟨tree, htrees, hformed⟩ := htree
  rw [htrees]
  exact secures_built hformed

/-- An expression that was read is built. -/
theorem built_of_read {text : String} {e : Expression} {cache cache' : Regex.Cache}
    (hcache : cache.Faithful) (hread : (read text).run.run cache = (.ok e, cache')) : Built e :=
  (secures_read text cache cache' e hcache hread).2

end Expression

end DocQuery
