import DocQuery.Proofs.Expression.Checked
import DocQuery.Proofs.Expression.Formed
import DocQuery.Proofs.Expression.Sessions
import DocQuery.Proofs.Language.Operands
import DocQuery.Proofs.Path.RoundTrip

/-!
# Trees of given expressions

Which tree an expression is read from, form by form: what the parts of a tree are read as decides
what the tree is read as. The patterns of constant matches are known to be regular expressions, so
the reader has one result, whatever patterns are kept.

Main names:

* `Expression.Reads` — a tree is read as an expression;
* `Expression.reads_chain` — two operands with an operator between them;
* `Expression.reads_membership`, `Expression.reads_matching`, … — operations after a subject.
-/

namespace DocQuery

open Grammar DocQuery.Language Operator

theorem KindTest.ofName?_name (test : KindTest) : KindTest.ofName? test.name = some test := by
  rcases test with kind | _ | _
  · cases kind <;> decide
  · rfl
  · rfl

/-- A tree is read as a reference. -/
def Reference.IsTree (r : Reference) (tree : Tree) : Prop :=
  tree.rule ∈ selectionRules ∧ Reference.ofTree tree = .ok r

namespace Expression

variable {e subject left right : Expression} {op : BinaryOperator} {r : Reference}
  {text : List Char} {place : Place} {tree keyword : Tree} {nodes : List Tree} {negated : Bool}

/-- A tree is read as an expression, and it is no operator. -/
structure Reads (e : Expression) (tree : Tree) : Prop where
  operand : operatorOf? tree.rule = none
  yields : Yields Regex.Cache.Faithful (ofTree tree) (.ok e)

theorem yields_checked {result : Except KindFault Expression} (hresult : result = .ok e) :
    Yields Regex.Cache.Faithful (Parse.checked result) (.ok e) := by
  rw [hresult]
  exact yields_lift _

theorem yields_readAll {es : List Expression} {trees : List Tree}
    (htrees : List.Forall₂ Reads es trees) :
    Yields Regex.Cache.Faithful (readAll trees) (.ok es) := by
  induction htrees with
  | nil =>
      rw [readAll]
      exact yields_pure _
  | cons hfirst _ ih =>
      rw [readAll]
      exact yields_bind hfirst.yields (yields_bind ih (yields_pure _))

/-! ## Parts without operands -/

theorem reads_constant {content : Scalar} (hrule : tree.rule ∈ literalRules)
    (hread : Scalar.ofTree tree = .ok content) : Reads (.constant (.scalar [] content)) tree := by
  have hoperand : ∀ rule ∈ literalRules, operatorOf? rule = none := by
    decide
  refine ⟨hoperand _ hrule, ?_⟩
  rw [ofTree_literal hrule, hread]
  exact yields_lift _

theorem reads_now (hrule : tree.rule = .nowLiteral) : Reads .now tree := by
  obtain ⟨rule, text, place, children⟩ := tree
  obtain rfl : rule = .nowLiteral := hrule
  refine ⟨rfl, ?_⟩
  rw [ofTree]
  exact yields_pure _

theorem reads_key (hrule : tree.rule = .keyReference) : Reads .key tree := by
  obtain ⟨rule, text, place, children⟩ := tree
  obtain rfl : rule = .keyReference := hrule
  refine ⟨rfl, ?_⟩
  rw [ofTree]
  exact yields_pure _

theorem reads_reference (htree : r.IsTree tree) : Reads (.reference r) tree := by
  have hoperand : ∀ rule ∈ selectionRules, operatorOf? rule = none := by
    decide
  refine ⟨hoperand _ htree.1, ?_⟩
  rw [ofTree_selection htree.1, htree.2]
  exact yields_lift _

theorem reads_existence (htree : r.IsTree tree) :
    Reads (.existence r) (.mk .existence text place [keyword, tree]) := by
  refine ⟨rfl, ?_⟩
  rw [ofTree, htree.2]
  exact yields_lift _

/-! ## Operands -/

/-- An operand alone is a whole expression. -/
theorem reads_lone (htree : Reads e tree) : Reads e (.mk .expression text place [tree]) := by
  refine ⟨rfl, ?_⟩
  rw [ofTree]
  exact htree.yields

/-- A subject alone is an operand. -/
theorem reads_alone (htree : Reads e tree) : Reads e (.mk .postfixOperand text place [tree]) := by
  refine ⟨rfl, ?_⟩
  rw [ofTree]
  exact htree.yields

/-- There is one way to group two operands. -/
theorem ofItems_pair (left right : Expression) (op : BinaryOperator) :
    ofItems [.operand left, .operator op, .operand right] =
      Parse.lift ((ofBinary left right op).mapError .kind) := by
  have hgroup : ofItems [.operand left, .operator op, .operand right] =
      Parse.lift ((ofBinary left right op).mapError .kind >>= pure) := by
    rcases op with op | op | op <;> cases op <;> rfl
  rw [hgroup, bind_pure]

theorem reads_chain {leftTree rightTree operator : Tree} (hleft : Reads left leftTree)
    (hright : Reads right rightTree) (hoperator : operator.rule = operatorRule op)
    (he : ofBinary left right op = .ok e) :
    Reads e (.mk .expression text place [leftTree, operator, rightTree]) := by
  have hop : operatorOf? operator.rule = some op := by
    rw [hoperator, operatorOf?_operatorRule]
  refine ⟨rfl, ?_⟩
  rw [ofTree]
  · rw [readItems_operand hleft.operand, readItems_operator hop, readItems_operand hright.operand,
      readItems]
    have hlast : Yields Regex.Cache.Faithful (ofItems [.operand left, .operator op, .operand right])
        (.ok e) := by
      rw [ofItems_pair, he]
      exact yields_lift _
    exact yields_bind (yields_bind hleft.yields (yields_bind (yields_bind (yields_bind hright.yields
      (yields_bind (yields_pure _) (yields_pure _))) (yields_pure _)) (yields_pure _))) hlast
  · intro single hparts
    cases hparts

theorem reads_negation (htree : Reads e tree) (he : ofNegation e = .ok (.negation e)) :
    Reads (.negation e) (.mk .negation text place [keyword, tree]) := by
  refine ⟨rfl, ?_⟩
  rw [ofTree]
  exact yields_bind htree.yields (yields_checked he)

/-- The tree of a list of arguments. -/
def IsArguments (es : List Expression) (nodes : List Tree) : Prop :=
  ∃ text place arguments, nodes = [.mk .argumentList text place arguments] ∧
    List.Forall₂ Reads es arguments

theorem reads_concatenation {es : List Expression} (hnodes : IsArguments es nodes)
    (he : ofConcatenation es = .ok (.concatenation es)) :
    Reads (.concatenation es) (.mk .concatenation text place (keyword :: nodes)) := by
  obtain ⟨text', place', arguments, rfl, harguments⟩ := hnodes
  refine ⟨rfl, ?_⟩
  rw [ofTree]
  exact yields_bind (yields_readAll harguments) (yields_checked he)

/-! ## Operations after a subject -/

/-- The rule of a test of a kind. -/
def kindTestRule (negated : Bool) : Rule :=
  if negated then .negatedTypeCheck else .typeCheck

/-- The rule of a test for membership. -/
def membershipRule (negated : Bool) : Rule :=
  if negated then .notInOperation else .inOperation

/-- The rule of a test for a range. -/
def rangeRule (negated : Bool) : Rule :=
  if negated then .notBetweenOperation else .betweenOperation

/-- The rule of a match. -/
def matchingRule : MatchOperator → Rule
  | .search => .matchesOperation
  | .startsWith => .startsWithOperation
  | .endsWith => .endsWithOperation
  | .contains => .containsOperation

theorem reads_kindTest {test : KindTest} (htree : r.IsTree tree)
    (hnodes : IsOperation (kindTestRule negated) (IsNode .typeName test.name.toList Leafless) nodes) :
    Reads (.kindTest r test negated) (.mk .postfixOperand text place (tree :: nodes)) := by
  obtain ⟨text', place', words, parts, rfl, hlength, place'', children, rfl, _⟩ := hnodes
  have hread : readKindTest tree test.name.toList negated = .ok (.kindTest r test negated) := by
    obtain ⟨hrule, hr⟩ := htree
    unfold readKindTest
    simp only [selectionRules, List.mem_cons, List.not_mem_nil, or_false] at hrule
    rcases hrule with hrule | hrule <;>
      (rw [hrule, hr, String.ofList_toList, KindTest.ofName?_name]
       rfl)
  refine ⟨rfl, ?_⟩
  rw [ofTree]
  -- The two forms have one keyword and two.
  cases negated with
  | false =>
      obtain ⟨keyword, rfl⟩ := List.length_eq_one_iff.mp hlength
      show Yields _ (readOperation _ _ (.mk .typeCheck text' place' [keyword, _])) _
      rw [readOperation, Node.text, hread]
      exact yields_lift _
  | true =>
      obtain ⟨keyword, keyword', rfl⟩ := List.length_eq_two.mp hlength
      show Yields _ (readOperation _ _ (.mk .negatedTypeCheck text' place' [keyword, keyword', _])) _
      rw [readOperation, Node.text, hread]
      exact yields_lift _

/-- What is built from a list of arguments and a subject. -/
theorem yields_listed {build : Expression → List Expression → Except KindFault Expression}
    {es : List Expression} {arguments : List Tree} (htree : Reads subject tree)
    (harguments : List.Forall₂ Reads es arguments) (he : build subject es = .ok e) :
    Yields Regex.Cache.Faithful
      (do
        let es ← readAll arguments
        Parse.checked (build (← ofTree tree) es)) (.ok e) :=
  yields_bind (yields_readAll harguments) (yields_bind htree.yields (yields_checked he))

theorem reads_membership {candidates : List Expression} (htree : Reads subject tree)
    (hnodes : IsOperation (membershipRule negated) (IsArguments candidates) nodes)
    (he : ofMembership subject candidates negated = .ok e) :
    Reads e (.mk .postfixOperand text place (tree :: nodes)) := by
  obtain ⟨text', place', words, parts, rfl, hlength, text'', place'', arguments, rfl, harguments⟩ :=
    hnodes
  refine ⟨rfl, ?_⟩
  rw [ofTree]
  cases negated with
  | false =>
      obtain ⟨keyword, rfl⟩ := List.length_eq_one_iff.mp hlength
      show Yields _ (readOperation _ _ (.mk .inOperation text' place' [keyword, _])) _
      rw [readOperation]
      exact yields_listed htree harguments he
  | true =>
      obtain ⟨keyword, keyword', rfl⟩ := List.length_eq_two.mp hlength
      show Yields _ (readOperation _ _ (.mk .notInOperation text' place' [keyword, keyword', _])) _
      rw [readOperation]
      exact yields_listed htree harguments he

theorem reads_range {bounds : List Expression} (htree : Reads subject tree)
    (hnodes : IsOperation (rangeRule negated) (IsArguments bounds) nodes)
    (he : ofRange subject bounds negated = .ok e) :
    Reads e (.mk .postfixOperand text place (tree :: nodes)) := by
  obtain ⟨text', place', words, parts, rfl, hlength, text'', place'', arguments, rfl, harguments⟩ :=
    hnodes
  refine ⟨rfl, ?_⟩
  rw [ofTree]
  cases negated with
  | false =>
      obtain ⟨keyword, rfl⟩ := List.length_eq_one_iff.mp hlength
      show Yields _ (readOperation _ _ (.mk .betweenOperation text' place' [keyword, _])) _
      rw [readOperation]
      exact yields_listed htree harguments he
  | true =>
      obtain ⟨keyword, keyword', rfl⟩ := List.length_eq_two.mp hlength
      show Yields _ (readOperation _ _ (.mk .notBetweenOperation text' place' [keyword, keyword', _]))
        _
      rw [readOperation]
      exact yields_listed htree harguments he

/-- A match is read where its pattern is a regular expression, if it is fixed. -/
theorem yields_readMatching {op : MatchOperator} {argument : Expression}
    (he : ofMatching op subject argument = .ok (.matching op subject argument))
    (hpattern : ∀ pattern, fixedPattern? op argument = some pattern →
      (Regex.read pattern).isSome = true) :
    Yields Regex.Cache.Faithful (readMatching op subject argument)
      (.ok (.matching op subject argument)) := by
  unfold readMatching
  refine yields_bind (yields_checked he) ?_
  cases hfixed : fixedPattern? op argument with
  | none => exact yields_pure _
  | some pattern =>
      obtain ⟨regex, hread⟩ := Option.isSome_iff_exists.mp (hpattern pattern hfixed)
      have hcompile := Parse.yields_compile pattern
      rw [hread] at hcompile
      exact yields_bind hcompile (yields_pure _)

theorem reads_matching {op : MatchOperator} {argument : Expression} (htree : Reads subject tree)
    (hnodes : IsOperation (matchingRule op) (IsOne (Reads argument)) nodes)
    (he : ofMatching op subject argument = .ok (.matching op subject argument))
    (hpattern : ∀ pattern, fixedPattern? op argument = some pattern →
      (Regex.read pattern).isSome = true) :
    Reads (.matching op subject argument) (.mk .postfixOperand text place (tree :: nodes)) := by
  obtain ⟨text', place', words, parts, rfl, hlength, argumentTree, rfl, hargument⟩ := hnodes
  have hyields : Yields Regex.Cache.Faithful
      (do
        let argument ← ofTree argumentTree
        readMatching op (← ofTree tree) argument) (.ok (.matching op subject argument)) :=
    yields_bind hargument.yields (yields_bind htree.yields (yields_readMatching he hpattern))
  refine ⟨rfl, ?_⟩
  rw [ofTree]
  -- The four rules differ in the number of keywords before the argument.
  cases op with
  | search =>
      obtain ⟨keyword, rfl⟩ := List.length_eq_one_iff.mp hlength
      show Yields _ (readOperation _ _ (.mk .matchesOperation text' place' [keyword, _])) _
      rw [readOperation]
      exact hyields
  | startsWith =>
      obtain ⟨keyword, keyword', rfl⟩ := List.length_eq_two.mp hlength
      show Yields _ (readOperation _ _ (.mk .startsWithOperation text' place' [keyword, keyword', _]))
        _
      rw [readOperation]
      exact hyields
  | endsWith =>
      obtain ⟨keyword, keyword', rfl⟩ := List.length_eq_two.mp hlength
      show Yields _ (readOperation _ _ (.mk .endsWithOperation text' place' [keyword, keyword', _])) _
      rw [readOperation]
      exact hyields
  | contains =>
      obtain ⟨keyword, rfl⟩ := List.length_eq_one_iff.mp hlength
      show Yields _ (readOperation _ _ (.mk .containsOperation text' place' [keyword, _])) _
      rw [readOperation]
      exact hyields

theorem reads_annotationTest {name : Expression} (htree : Reads subject tree)
    (hnodes : IsOperation .hasAnnotationOperation (IsOne (Reads name)) nodes)
    (he : ofAnnotationTest subject name = .ok e) :
    Reads e (.mk .postfixOperand text place (tree :: nodes)) := by
  obtain ⟨text', place', words, parts, rfl, hlength, nameTree, rfl, hname⟩ := hnodes
  obtain ⟨keyword, keyword', rfl⟩ := List.length_eq_two.mp hlength
  refine ⟨rfl, ?_⟩
  rw [ofTree]
  show Yields _ (readOperation _ _ (.mk .hasAnnotationOperation text' place' [keyword, keyword', _])) _
  rw [readOperation]
  exact yields_bind hname.yields (yields_bind htree.yields (yields_checked he))

end Expression

end DocQuery
