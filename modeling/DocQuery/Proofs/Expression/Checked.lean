import DocQuery.Expression.Reader
import DocQuery.Proofs.Operator.Fold
import DocQuery.Proofs.Sequencing

/-!
# Checked expressions

The reader builds every operation with the function that checks its operands.  `Checked` gathers the
expressions that are built in this way; whatever is read is one of them.

Main names:

* `Expression.Checked` — built by the checking functions;
* `Expression.ofBinary_cases` and the lemmas before it — what the checks say of the operands;
* `Expression.ofItems_keeps` — what the checking functions keep is kept by grouping;
* `Parse.Judges`, `Parse.Judges.ofTree` — a judgement that the steps of the reader keep holds of
  every tree, of checked results;
* `Expression.gives_checked` — what is read is checked.
-/

namespace DocQuery

open Grammar DocQuery.Language Operator

namespace Expression

/-- An expression that is built by the functions that check operands. -/
inductive Checked : Expression → Prop
  | constant (v : Value) : Checked (.constant v)
  | now : Checked .now
  | reference (r : Reference) : Checked (.reference r)
  | key : Checked .key
  | existence (r : Reference) : Checked (.existence r)
  | kindTest (r : Reference) (test : KindTest) (negated : Bool) :
      Checked (.kindTest r test negated)
  | negation {operand e : Expression} (hoperand : Checked operand)
      (he : ofNegation operand = .ok e) : Checked e
  | binary {left right e : Expression} {op : BinaryOperator} (hleft : Checked left)
      (hright : Checked right) (he : ofBinary left right op = .ok e) : Checked e
  | membership {subject e : Expression} {candidates : List Expression} {negated : Bool}
      (hsubject : Checked subject) (hcandidates : ∀ c ∈ candidates, Checked c)
      (he : ofMembership subject candidates negated = .ok e) : Checked e
  | range {subject e : Expression} {bounds : List Expression} {negated : Bool}
      (hsubject : Checked subject) (hbounds : ∀ b ∈ bounds, Checked b)
      (he : ofRange subject bounds negated = .ok e) : Checked e
  | matching {op : MatchOperator} {subject argument e : Expression} (hsubject : Checked subject)
      (hargument : Checked argument) (he : ofMatching op subject argument = .ok e) : Checked e
  | concatenation {arguments : List Expression} {e : Expression}
      (harguments : ∀ a ∈ arguments, Checked a) (he : ofConcatenation arguments = .ok e) : Checked e
  | annotationTest {subject name e : Expression} (hsubject : Checked subject)
      (hname : Checked name) (he : ofAnnotationTest subject name = .ok e) : Checked e

/-! ## What the checks say -/

theorem accepts_of_expect {operation : String} {wanted : StaticKind} {operand : Expression}
    {done : Unit} (hdone : expect operation wanted operand = .ok done) :
    operand.kind.accepts wanted = true := by
  unfold expect at hdone
  split at hdone
  · assumption
  · cases hdone

theorem comparable_of_ok {keyword : String} {subject : Expression} {arguments : List Expression}
    {done : Unit} (hdone : comparable keyword subject arguments = .ok done) :
    ∀ a ∈ arguments, subject.kind.comparable a.kind = true := by
  unfold comparable at hdone
  split at hdone
  · cases hdone
  · rename_i hnone
    simpa using hnone

theorem ofNegation_eq_ok {operand e : Expression} (he : ofNegation operand = .ok e) :
    e = .negation operand ∧ operand.kind.accepts .bool = true := by
  obtain ⟨done, hdone, he⟩ := bind_eq_ok he
  cases he
  exact ⟨rfl, accepts_of_expect hdone⟩

theorem ofMembership_eq_ok {subject e : Expression} {candidates : List Expression} {negated : Bool}
    (he : ofMembership subject candidates negated = .ok e) :
    e = .membership subject candidates negated ∧
      ∀ c ∈ candidates, subject.kind.comparable c.kind = true := by
  obtain ⟨done, hdone, he⟩ := bind_eq_ok he
  cases he
  exact ⟨rfl, comparable_of_ok hdone⟩

theorem ofRange_eq_ok {subject e : Expression} {bounds : List Expression} {negated : Bool}
    (he : ofRange subject bounds negated = .ok e) :
    ∃ lower upper, bounds = [lower, upper] ∧ e = .range subject lower upper negated ∧
      subject.kind.comparable lower.kind = true ∧ subject.kind.comparable upper.kind = true := by
  unfold ofRange at he
  split at he
  · rename_i lower upper
    obtain ⟨done, hdone, he⟩ := bind_eq_ok he
    cases he
    have hbounds := comparable_of_ok hdone
    exact ⟨lower, upper, rfl, rfl, hbounds lower (by simp), hbounds upper (by simp)⟩
  · cases he

theorem ofMatching_eq_ok {op : MatchOperator} {subject argument e : Expression}
    (he : ofMatching op subject argument = .ok e) :
    e = .matching op subject argument ∧ subject.kind.accepts .string = true ∧
      argument.kind.accepts .string = true := by
  obtain ⟨done, hsubject, he⟩ := bind_eq_ok he
  obtain ⟨done', hargument, he⟩ := bind_eq_ok he
  cases he
  exact ⟨rfl, accepts_of_expect hsubject, accepts_of_expect hargument⟩

theorem ofConcatenation_eq_ok {arguments : List Expression} {e : Expression}
    (he : ofConcatenation arguments = .ok e) :
    ∃ first rest, arguments = first :: rest ∧ e = .concatenation (first :: rest) ∧
      first.kind.accepts .string = true := by
  unfold ofConcatenation at he
  split at he
  · cases he
  · rename_i first rest
    obtain ⟨done, hdone, he⟩ := bind_eq_ok he
    cases he
    exact ⟨first, rest, rfl, rfl, accepts_of_expect hdone⟩

theorem ofAnnotationTest_eq_ok {subject name e : Expression}
    (he : ofAnnotationTest subject name = .ok e) :
    e = .annotationTest subject name ∧ name.kind.accepts .string = true := by
  obtain ⟨done, hdone, he⟩ := bind_eq_ok he
  cases he
  exact ⟨rfl, accepts_of_expect hdone⟩

/-- What an operation between two operands is, and what has been checked of them. -/
inductive Binary (left right : Expression) : Expression → Prop
  | arithmetic {op : ArithmeticOperator} {kind : StaticKind}
      (hkinds : left.kind.arithmetic right.kind = some kind) :
      Binary left right (.arithmetic op left right)
  | temporal {op : TemporalOperator} {kind : StaticKind}
      (hkinds : StaticKind.temporal op left.kind right.kind = some kind) :
      Binary left right (.temporal op left right)
  | relational {op : RelationalOperator} (hkinds : left.kind.comparable right.kind = true) :
      Binary left right (.relational op left right)
  | logical {op : LogicalOperator} (hleft : left.kind.accepts .bool = true)
      (hright : right.kind.accepts .bool = true) : Binary left right (.logical op left right)

theorem binary_of_ofArithmetic {op : ArithmeticOperator} {left right e : Expression}
    (he : ofArithmetic op left right = .ok e) : Binary left right e := by
  unfold ofArithmetic at he
  dsimp only at he
  split at he
  · split at he
    · unfold ofTemporal at he
      split at he
      · rename_i kind hkinds
        cases he
        exact .temporal hkinds
      · cases he
    · split at he
      · rename_i kind hkinds
        cases he
        exact .arithmetic hkinds
      · cases he
  · split at he
    · rename_i kind hkinds
      cases he
      exact .arithmetic hkinds
    · cases he

theorem ofBinary_cases {left right e : Expression} {op : BinaryOperator}
    (he : ofBinary left right op = .ok e) : Binary left right e := by
  cases op with
  | arithmetic op => exact binary_of_ofArithmetic he
  | relational op =>
      simp only [ofBinary, ofRelational] at he
      split at he
      · rename_i hkinds
        cases he
        exact .relational hkinds
      · cases he
  | logical op =>
      obtain ⟨done, hleft, he⟩ := bind_eq_ok he
      obtain ⟨done', hright, he⟩ := bind_eq_ok he
      cases he
      exact .logical (accepts_of_expect hleft) (accepts_of_expect hright)

/-! ## Grouping -/

/-- What holds of the operands and is kept by the checking functions holds of what is grouped. -/
theorem ofItems_keeps {holds : Expression → Prop}
    (hbinary : ∀ {left right e : Expression} {op : BinaryOperator}, holds left → holds right →
      ofBinary left right op = .ok e → holds e)
    {items : List (Item Expression BinaryOperator)} (hitems : ∀ e, .operand e ∈ items → holds e)
    {e : Expression}
    (he : groupWith (fun left right op => (ofBinary left right op).mapError ParseError.kind)
      BinaryOperator.associativity (fun refused => .error (.grouping refused)) BinaryOperator.tiers
      items = .ok e) : holds e := by
  refine groupWith_keeps ?_ ?_ hitems he
  · intro left right op e hleft hright he
    exact hbinary hleft hright (ok_of_mapError he)
  · intro refused e hrefused
    cases hrefused

end Expression

/-! ## Reading -/

namespace Parse

/-- A judgement on what is read that the steps of the reader keep. -/
structure Judges (judged : ∀ {α : Type}, Parse α → (α → Prop) → Prop) : Prop where
  of_pure : ∀ {α : Type} {a : α} {holds : α → Prop}, holds a → judged (pure a) holds
  of_lift : ∀ {α : Type} {result : Except ParseError α} {holds : α → Prop},
    (∀ a, result = .ok a → holds a) → judged (lift result) holds
  of_bind : ∀ {α β : Type} {x : Parse α} {f : α → Parse β} {holds : α → Prop} {holds' : β → Prop},
    judged x holds → (∀ a, holds a → judged (f a) holds') → judged (x >>= f) holds'
  of_compile : ∀ pattern, judged (compile pattern) fun _ => True

namespace Judges

open Expression

variable {judged : ∀ {α : Type}, Parse α → (α → Prop) → Prop} (hj : Judges judged)

include hj

theorem of_map {α β : Type} {holds : α → Prop} {holds' : β → Prop} {x : Parse α} {f : α → β}
    (hx : judged x holds) (hf : ∀ a, holds a → holds' (f a)) : judged (f <$> x) holds' := by
  rw [map_eq_pure_bind]
  exact hj.of_bind hx fun a ha => hj.of_pure (hf a ha)

theorem of_checked {α : Type} {result : Except KindFault α} {holds : α → Prop}
    (hresult : ∀ a, result = .ok a → holds a) : judged (checked result) holds :=
  hj.of_lift fun a ha => hresult a (ok_of_mapError ha)

/-- Grouped operands are checked where they meet. -/
theorem of_ofItems {items : List (Item Expression BinaryOperator)}
    (hitems : ∀ e, .operand e ∈ items → Checked e) : judged (ofItems items) Checked :=
  hj.of_lift fun _ he => ofItems_keeps .binary hitems he

theorem of_readMatching {op : MatchOperator} {subject argument : Expression}
    (hsubject : Checked subject) (hargument : Checked argument) :
    judged (readMatching op subject argument) Checked := by
  unfold readMatching
  refine hj.of_bind (hj.of_checked fun e he => Checked.matching hsubject hargument he) ?_
  intro e he
  cases fixedPattern? op argument with
  | some pattern => exact hj.of_bind (hj.of_compile pattern) fun _ _ => hj.of_pure he
  | none => exact hj.of_pure he

theorem of_readKindTest {subject : Tree} {name : List Char} {negated : Bool} :
    judged (lift (readKindTest subject name negated)) Checked := by
  refine hj.of_lift fun e he => ?_
  unfold readKindTest at he
  split at he
  case h_3 => cases he
  all_goals
    obtain ⟨r, -, htest⟩ := bind_eq_ok he
    split at htest
    · cases htest
      exact .kindTest r _ negated
    · cases htest

theorem of_cons {item : Parse (Item Expression BinaryOperator)}
    {items : Parse (List (Item Expression BinaryOperator))}
    (hitem : judged item fun i => ∀ e, i = .operand e → Checked e)
    (hitems : judged items fun is => ∀ e, .operand e ∈ is → Checked e) :
    judged (do return (← item) :: (← items)) fun is => ∀ e, .operand e ∈ is → Checked e := by
  refine hj.of_bind hitem fun i hi => hj.of_bind hitems fun is his => hj.of_pure ?_
  intro e he
  rcases List.mem_cons.mp he with heq | hmem
  · exact hi e heq.symm
  · exact his e hmem

/-- What is read of a tree is checked. The induction follows the reader: trees of expressions and of
what stands after a subject, lists of arguments, and operands between operators. -/
theorem ofTree (tree : Tree) : judged (ofTree tree) Checked := by
  apply Expression.ofTree.induct (fun tree => judged (Expression.ofTree tree) Checked)
    (fun written subject operation =>
      judged subject Checked → judged (readOperation written subject operation) Checked)
    (fun trees => judged (readAll trees) fun es => ∀ e ∈ es, Checked e)
    (fun trees => judged (readItems trees) fun items => ∀ e, .operand e ∈ items → Checked e)
  -- A lone operand, and an operand without an operation after it.
  case case1 | case6 =>
    intro text place operand hoperand
    rw [Expression.ofTree]
    exact hoperand
  -- Operands between operators.
  case case2 =>
    intro text place parts hparts hitems
    rw [Expression.ofTree]
    · exact hj.of_bind hitems fun items hitems => hj.of_ofItems hitems
    · exact hparts
  -- Negations, tests of existence and concatenations.
  case case3 =>
    intro text place head operand tail hoperand
    rw [Expression.ofTree]
    exact hj.of_bind hoperand fun e he => hj.of_checked fun _ hresult => .negation he hresult
  case case4 =>
    intro text place head selection tail
    rw [Expression.ofTree]
    refine hj.of_lift fun e he => ?_
    obtain ⟨r, -, rfl⟩ := map_eq_ok he
    exact .existence r
  case case5 =>
    intro text place head rule text' place' arguments tail harguments
    rw [Expression.ofTree]
    exact hj.of_bind harguments fun es hes => hj.of_checked fun _ hresult =>
      .concatenation hes hresult
  -- An operand with an operation after it.
  case case7 =>
    intro text place subject operation tail hsubject hoperation
    rw [Expression.ofTree]
    exact hoperation hsubject
  -- Selections, the two names, and literals.
  case case8 | case9 =>
    intro text place children
    rw [Expression.ofTree]
    refine hj.of_lift fun e he => ?_
    obtain ⟨r, -, rfl⟩ := map_eq_ok he
    exact .reference r
  case case10 =>
    intro text place children
    rw [Expression.ofTree]
    exact hj.of_pure .key
  case case11 =>
    intro text place children
    rw [Expression.ofTree]
    exact hj.of_pure .now
  case case12 =>
    intro tree h1 h2 h3 h4 h5 h6 h7 h8 h9 h10 h11
    rw [Expression.ofTree]
    · refine hj.of_lift fun e he => ?_
      obtain ⟨content, -, rfl⟩ := map_eq_ok he
      exact .constant _
    all_goals assumption
  -- Tests of a kind leave the subject unread.
  case case13 =>
    intro written subject text place head name _
    rw [readOperation]
    exact hj.of_readKindTest
  case case14 =>
    intro written subject text place head head' name _
    rw [readOperation]
    exact hj.of_readKindTest
  -- Memberships and ranges, plain and negated.
  case case15 | case16 =>
    intros
    rename_i arguments harguments hsubject
    rw [readOperation]
    refine hj.of_bind harguments fun es hes => hj.of_bind hsubject fun e he => ?_
    exact hj.of_checked fun _ hresult => .membership he hes hresult
  case case17 | case18 =>
    intros
    rename_i arguments harguments hsubject
    rw [readOperation]
    refine hj.of_bind harguments fun es hes => hj.of_bind hsubject fun e he => ?_
    exact hj.of_checked fun _ hresult => .range he hes hresult
  -- The four matches.
  case case19 | case20 | case21 | case22 =>
    intros
    rename_i argument hargument hsubject
    rw [readOperation]
    exact hj.of_bind hargument fun a ha => hj.of_bind hsubject fun e he =>
      hj.of_readMatching he ha
  case case23 =>
    intro written subject text place head head' name hname hsubject
    rw [readOperation]
    refine hj.of_bind hname fun n hn => hj.of_bind hsubject fun e he => ?_
    exact hj.of_checked fun _ hresult => .annotationTest he hn hresult
  -- Any other tree after a subject is refused.
  case case24 =>
    intro written subject tree h1 h2 h3 h4 h5 h6 h7 h8 h9 h10 h11 _
    rw [readOperation]
    · refine hj.of_lift fun e he => ?_
      cases he
    all_goals assumption
  -- Lists of arguments, and of operands and operators.
  case case25 =>
    rw [readAll]
    exact hj.of_pure (by simp)
  case case26 =>
    intro part parts hpart hparts
    rw [readAll]
    refine hj.of_bind hpart fun e he => hj.of_bind hparts fun es hes => hj.of_pure ?_
    exact List.forall_mem_cons.mpr ⟨he, hes⟩
  case case27 =>
    rw [readItems]
    exact hj.of_pure (by simp)
  case case28 =>
    intro part parts op hop hparts
    rw [readItems, hop]
    refine hj.of_cons (hj.of_pure fun e heq => ?_) hparts
    cases heq
  case case29 =>
    intro part parts hop hparts hpart
    rw [readItems, hop]
    have hitem : judged (Item.operand <$> Expression.ofTree part)
        fun item : Item Expression BinaryOperator => ∀ e, item = .operand e → Checked e := by
      refine hj.of_map hpart fun e he e' heq => ?_
      cases heq
      exact he
    exact hj.of_cons hitem hparts

end Judges

/-- Every result that a tree is read with can be judged alone. -/
theorem judges_gives : Judges fun x holds => Gives x holds where
  of_pure := gives_pure
  of_lift := gives_lift
  of_bind := gives_bind
  of_compile pattern := gives_true (compile pattern)

end Parse

/-- What is read is checked. -/
theorem Expression.gives_checked (tree : Tree) : Gives (ofTree tree) Checked :=
  Parse.judges_gives.ofTree tree

end DocQuery
