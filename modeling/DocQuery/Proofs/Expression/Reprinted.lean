import DocQuery.Proofs.Expression.KindSafety
import DocQuery.Proofs.Expression.Primaries
import DocQuery.Proofs.Expression.Stalls
import Mathlib.Data.List.TakeWhile

/-!
# Reading expressions that were written

Operations between two operands are written in parentheses, operations after a subject are not.  So
an expression is read back if every subject, pattern and name is one that the grammar takes there
without parentheses, and if its floats are numbers.  Otherwise the words of an operation come where
the grammar has none, and the text is refused; the one exception are negations as subjects, which
take the operation after them into their operand.

Main names:

* `Expression.Regular`, `Expression.Unnegated` — the two conditions, on all parts;
* `Expression.Answers` — what the grammar makes of the text of an expression;
* `Expression.answers_operation`, `Expression.answers_binary`, … — one lemma for each form;
* `Expression.answers_of_built` — all of them, by induction.
-/

namespace DocQuery.Expression

open Grammar DocQuery.Language

variable {gap rest : List Char} {e subject : Expression}

/-! ## Parts -/

/-- Constants, selections, keys, and operations between two operands, which stand in parentheses. -/
def isSimple : Expression → Bool
  | constant _ | now | reference _ | key => true
  | arithmetic _ _ _ | relational _ _ _ | logical _ _ _ | temporal _ _ _ => true
  | _ => false

/-- The operands that are written without parentheses beside the words of an operation: its subject,
and the pattern or the name after the words. -/
def openOperands : Expression → List Expression
  | membership subject _ _ | range subject _ _ _ => [subject]
  | matching _ subject argument => [subject, argument]
  | annotationTest subject name => [subject, name]
  | _ => []

def isNegation : Expression → Bool
  | negation _ => true
  | _ => false

/-- Every float that an expression is itself is a number. -/
def isFinite : Expression → Bool
  | constant (.scalar _ content) => content.isFinite
  | _ => true

/-- In no part of an expression does the text of an operand need parentheses that it does not have,
and every float is a number. -/
def Regular (e : Expression) : Prop :=
  ∀ part, e.Within part → part.isFinite = true ∧ ∀ o ∈ part.openOperands, o.isSimple = true

/-- In no part of an expression is a negation the subject of an operation. -/
def Unnegated (e : Expression) : Prop :=
  ∀ part, e.Within part → ∀ o ∈ part.openOperands, o.isNegation = false

theorem forall_within_iff {holds : Expression → Prop} :
    (∀ part, e.Within part → holds part) ↔
      holds e ∧ ∀ part ∈ e.parts, ∀ inner, part.Within inner → holds inner := by
  constructor
  · exact fun hall => ⟨hall e .refl, fun part hpart inner hinner =>
      hall inner (Relation.ReflTransGen.head hpart hinner)⟩
  · rintro ⟨hself, hparts⟩ inner hinner
    rcases Relation.ReflTransGen.cases_head hinner with rfl | ⟨part, hpart, hinner⟩
    · exact hself
    · exact hparts part hpart inner hinner

theorem regular_iff :
    Regular e ↔ (e.isFinite = true ∧ ∀ o ∈ e.openOperands, o.isSimple = true) ∧
      ∀ part ∈ e.parts, Regular part :=
  forall_within_iff

theorem Unnegated.part (he : Unnegated e) {part : Expression} (hpart : part ∈ e.parts) :
    Unnegated part :=
  (forall_within_iff.mp he).2 part hpart

theorem isNegation_of_isSimple (hsimple : e.isSimple = true) : e.isNegation = false := by
  cases e <;> first | rfl | cases hsimple

/-- Negations are no operands of regular expressions that stand without parentheses. -/
theorem Regular.unnegated (he : Regular e) : Unnegated e :=
  fun part hpart o ho => isNegation_of_isSimple ((he part hpart).2 o ho)

/-! ## What the grammar makes of a text -/

/-- A runner takes the text of a regular expression and leaves its tree; the text of another one it
does not get through. -/
def Outcome (run : Runner Rule) (stuck : List Char → Prop) (e : Expression) (gap rest : List Char) :
    Prop :=
  (Regular e → TakesTrailing run e.write gap rest (IsOne (Reads e))) ∧
    (¬ Regular e → stuck (e.write ++ (gap ++ rest)))

/-- What the rule of operands makes of a text, which may end before the words of an operation. -/
abbrev OperandOutcome : Expression → List Char → List Char → Prop :=
  Outcome (grammar.call .loose .operand) (Stalls OperationNext (grammar.call .loose .operand))

/-- What the rule of subjects makes of a text, which it takes as a whole or not at all. -/
abbrev SubjectOutcome : Expression → List Char → List Char → Prop :=
  Outcome (grammar.call .loose .primary) (Refuses (grammar.call .loose .primary))

/-- The outcomes for the text of an expression, as an operand, before the words of an operation, and
as a subject. -/
structure Answers (e : Expression) : Prop where
  opens : Value.Opens e.write
  operand : ∀ gap rest, Closes gap rest → OperandOutcome e gap rest
  compound : e.isNegation = false → e.isSimple = false → ∀ gap rest, Follows gap rest →
    OperandOutcome e gap rest
  simple : e.isSimple = true → Begins primaryHeads e.write ∧ ∀ gap rest, Follows gap rest →
    SubjectOutcome e gap rest

theorem opens_of_begins {text : List Char} (htext : Begins primaryHeads text) : Value.Opens text := by
  obtain ⟨head, hhead, tail, rfl⟩ := htext
  have hall : ∀ head ∈ primaryHeads,
      (head.head?.any fun c => !grammar.blank.contains c) = true := by
    decide
  have hfirst := hall head hhead
  cases head with
  | nil => cases hfirst
  | cons c head => exact ⟨c, head ++ tail, rfl, by simpa using hfirst⟩

/-- A subject is an operand if no operation follows. -/
theorem answers_of_simple (hsimple : e.isSimple = true) (hbegins : Begins primaryHeads e.write)
    (houtcome : ∀ gap rest, Follows gap rest → SubjectOutcome e gap rest) : Answers e where
  opens := opens_of_begins hbegins
  operand gap rest hcloses := by
    obtain ⟨hregular, hother⟩ := houtcome gap rest hcloses.toFollows
    refine ⟨fun he => ?_, fun he => Or.inl (refuses_operand (hbegins.append _) (hother he))⟩
    refine (takes_subject hbegins hcloses.toFollows hcloses.operation (hregular he)).imp ?_
    rintro nodes ⟨_, rfl, text, place, tree, rfl, htree⟩
    exact ⟨_, rfl, reads_alone htree⟩
  compound _ hcompound := absurd hsimple (by rw [hcompound]; decide)
  simple _ := ⟨hbegins, houtcome⟩

theorem answers_of_compound (hcompound : e.isSimple = false) (hopens : Value.Opens e.write)
    (houtcome : ∀ gap rest, Follows gap rest → OperandOutcome e gap rest) : Answers e where
  opens := hopens
  operand gap rest hcloses := houtcome gap rest hcloses.toFollows
  compound _ _ := houtcome
  simple hsimple := absurd hsimple (by rw [hcompound]; decide)

/-! ## Arguments -/

theorem writeAll_eq_map (es : List Expression) : writeAll es = es.map write := by
  induction es with
  | nil => rfl
  | cons e es ih => rw [writeAll, ih, List.map_cons]

theorem Answers.takesArgument (he : Answers e) (hregular : Regular e) :
    TakesArgument e.write (Reads e) := by
  intro rest hrest
  have htakes := takesTrailing_nil.mp ((he.operand [] rest hrest.closes).1 hregular)
  refine (takes_lone htakes hrest).imp ?_
  rintro nodes ⟨_, rfl, text, place, tree, rfl, htree⟩
  exact ⟨_, rfl, reads_lone htree⟩

theorem Answers.stallsArgument (he : Answers e) (hother : ¬ Regular e) : StallsArgument e.write :=
  fun rest hrest => stalls_expression ((he.operand [] rest hrest.closes).2 hother)

/-- A list of arguments is read back if all of them are regular, and refused otherwise. -/
theorem arguments_outcome {es : List Expression} (hsome : es ≠ []) (hes : ∀ e ∈ es, Answers e)
    (rest : List Char) :
    ((∀ e ∈ es, Regular e) → Takes (grammar.call .loose .argumentList)
      (writeArguments (writeAll es)) rest (IsArguments es)) ∧
    (¬ (∀ e ∈ es, Regular e) → Refuses (grammar.call .loose .argumentList)
      (writeArguments (writeAll es) ++ rest)) := by
  have hopens : ∀ e ∈ es, Value.Opens e.write := fun e he => (hes e he).opens
  rw [writeAll_eq_map]
  constructor
  · intro hregular
    cases es with
    | nil => exact absurd rfl hsome
    | cons e es =>
        refine (takes_arguments e es hopens
          (fun b hb => (hes b hb).takesArgument (hregular b hb)) rest).imp ?_
        rintro nodes ⟨_, rfl, text, place, arguments, rfl, harguments⟩
        exact ⟨text, place, arguments, rfl, harguments⟩
  · intro hother
    classical
    -- The list is refused at the first argument that is not taken.
    obtain ⟨a, hfirst⟩ : ∃ a, es.find? (fun e => decide (¬ Regular e)) = some a := by
      rw [← Option.isSome_iff_exists, List.find?_isSome]
      simpa using hother
    obtain ⟨ha, before, after, rfl, hbefore⟩ := List.find?_eq_some_iff_append.mp hfirst
    have hmem : a ∈ before ++ a :: after := by simp
    have htaken : ∀ b ∈ before, TakesArgument b.write (Reads b) := fun b hb =>
      (hes b (List.mem_append_left _ hb)).takesArgument (by simpa using hbefore b hb)
    exact refuses_arguments before after (fun b hb => hopens b (List.mem_append_left _ hb)) htaken
      (hopens a hmem) ((hes a hmem).stallsArgument (of_decide_eq_true ha)) rest

/-! ## Operations after a subject -/

/-- An operation whose part is read back on a condition, and refused otherwise. -/
structure Part (rule : Rule) (text : List Char) (holds : Prop) (good : List Tree → Prop) : Prop where
  opens : Value.Opens text
  takes : holds → ∀ gap rest, Follows gap rest →
    TakesTrailing (grammar.call .loose (operationPart rule)) text gap rest good
  refuses : ¬ holds → ∀ gap rest, Follows gap rest →
    Refuses (grammar.call .loose (operationPart rule)) (text ++ (gap ++ rest))

theorem operationNext_worded {rule : Rule} (hrule : rule ∈ operationOrder) (text rest : List Char) :
    OperationNext (worded (operationKeywords rule) text ++ rest) :=
  ⟨rule, hrule, text ++ rest, worded_append _ _ _⟩

/-- An operation after a subject.  If the subject is none that may stand there, reading stops where
the words of the operation begin; the same if the part after these words is refused. -/
theorem answers_operation {rule : Rule} (hrule : rule ∈ operationOrder)
    (hargument : operationPart rule ≠ .typeName) {text : List Char} {holds : Prop}
    {good : List Tree → Prop}
    (hwrite : e.write = subject.write ++ ([' '] ++ worded (operationKeywords rule) text))
    (hcompound : e.isSimple = false)
    (hregular : Regular e ↔ (subject.isSimple = true ∧ Regular subject) ∧ holds)
    (hsubject : Answers subject) (hunnegated : subject.isNegation = false)
    (hpart : Part rule text holds good)
    (hreads : ∀ text place tree nodes, Reads subject tree → IsOperation rule good nodes →
      Reads e (.mk .postfixOperand text place (tree :: nodes))) : Answers e := by
  refine answers_of_compound hcompound (hwrite ▸ hsubject.opens.append _) fun gap rest hfollows => ?_
  have hnext := operationNext_worded hrule text (gap ++ rest)
  have hword : Avoids grammar.blank (text ++ (gap ++ rest)) := hpart.opens.avoids _
  have htext : e.write ++ (gap ++ rest) = subject.write ++
      ([' '] ++ (worded (operationKeywords rule) text ++ (gap ++ rest))) := by
    rw [hwrite]
    simp only [List.append_assoc]
  unfold OperandOutcome Outcome
  rw [htext, hwrite]
  -- A compound subject takes an operation of its own, so the one behind it is left over.
  cases hsimple : subject.isSimple with
  | false =>
      obtain ⟨htakes, hstalls⟩ := hsubject.compound hunnegated hsimple _ _ hnext.follows
      refine ⟨fun he => absurd (hregular.mp he).1.1 (by rw [hsimple]; decide), fun _ => ?_⟩
      by_cases hsame : Regular subject
      · exact stalls_of_trailing (htakes hsame) isBlank_space hnext
      · exact hstalls hsame
  | true =>
      obtain ⟨hbegins, houtcome⟩ := hsubject.simple hsimple
      obtain ⟨htakes, hrefuses⟩ := houtcome _ _ hnext.follows
      refine ⟨fun he => ?_, fun he => ?_⟩
      · obtain ⟨⟨_, hsame⟩, hholds⟩ := hregular.mp he
        have hoperation := takes_operation hrule hword (fun r hr => ?_) (hpart.takes hholds gap rest hfollows)
        · refine (takes_operated hbegins (htakes hsame) hnext.unclosed.avoids hoperation).imp ?_
          rintro nodes ⟨_, rfl, text, place, tree, parts, rfl, htree, hparts⟩
          exact ⟨_, rfl, hreads text place tree parts htree hparts⟩
        · have hne : r ≠ rule := by
            rintro rfl
            have hother := List.mem_takeWhile_imp hr
            simp at hother
          exact refuses_other hrule hargument ((List.takeWhile_sublist _).subset hr) hne _
      -- With a simple subject the operation or the subject itself must be at fault.
      · by_cases hsame : Regular subject
        · have hholds : ¬ holds := fun hholds => he (hregular.mpr ⟨⟨hsimple, hsame⟩, hholds⟩)
          have hstop := refuses_operation hrule hargument hword (hpart.refuses hholds gap rest hfollows)
          rw [← worded_append] at hstop
          exact stalls_of_trailing (takes_subject hbegins hnext.follows hstop (htakes hsame))
            isBlank_space hnext
        · exact Or.inl (refuses_operand (hbegins.append _) (hrefuses hsame))

/-- A list of arguments as the part of an operation. -/
theorem part_of_arguments {rule : Rule} (hlist : operationPart rule = .argumentList)
    {es : List Expression} (hsome : es ≠ []) (hes : ∀ e ∈ es, Answers e) :
    Part rule (writeArguments (writeAll es)) (∀ e ∈ es, Regular e) (IsArguments es) where
  opens := ⟨'(', _, rfl, by decide⟩
  takes hregular gap rest _ := by
    rw [hlist]
    exact Takes.trailing ((arguments_outcome hsome hes _).1 hregular)
  refuses hother gap rest _ := by
    rw [hlist]
    exact (arguments_outcome hsome hes _).2 hother

/-- A pattern or a name as the part of an operation. A text is wanted, so it is no truth value: what
is not simple is a concatenation. -/
theorem part_of_argument {rule : Rule} (hprimary : operationPart rule = .primary)
    (he : Answers e) (haccepts : e.kind.accepts .string = true) :
    Part rule e.write (e.isSimple = true ∧ Regular e) (IsOne (Reads e)) where
  opens := he.opens
  takes hholds gap rest hfollows := by
    rw [hprimary]
    exact ((he.simple hholds.1).2 gap rest hfollows).1 hholds.2
  refuses hother gap rest hfollows := by
    rw [hprimary]
    cases hsimple : e.isSimple with
    | true =>
        exact ((he.simple hsimple).2 gap rest hfollows).2 fun hregular => hother ⟨hsimple, hregular⟩
    | false =>
        cases e with
        | concatenation arguments => exact refuses_concatText (by decide) _
        | negation | existence | kindTest | membership | range | matching | annotationTest =>
            cases haccepts
        | _ => cases hsimple

/-! ## One case for each form -/

theorem answers_constant {content : Scalar} (hcontent : content.IsLiteral) :
    Answers (constant (.scalar [] content)) := by
  refine answers_of_simple rfl (begins_constant hcontent) fun gap rest hfollows => ?_
  have hregular : Regular (constant (.scalar [] content)) ↔ content.isFinite = true := by
    rw [regular_iff]
    simp [isFinite, openOperands, parts]
  constructor
  · exact fun he => takes_constant hcontent (hregular.mp he) hfollows
  · intro he
    rw [hregular, Bool.not_eq_true] at he
    exact refuses_constant he _

theorem regular_of_leaf (hfinite : e.isFinite = true) (hopen : e.openOperands = [])
    (hparts : e.parts = []) : Regular e := by
  rw [regular_iff, hopen, hparts]
  exact ⟨⟨hfinite, nofun⟩, nofun⟩

/-- A subject without operands. -/
theorem answers_of_leaf (hsimple : e.isSimple = true) (hregular : Regular e)
    (hbegins : Begins primaryHeads e.write)
    (htakes : ∀ gap rest, Follows gap rest →
      TakesTrailing (grammar.call .loose .primary) e.write gap rest (IsOne (Reads e))) : Answers e :=
  answers_of_simple hsimple hbegins fun gap rest hfollows =>
    ⟨fun _ => htakes gap rest hfollows, fun he => absurd hregular he⟩

theorem answers_reference {r : Reference} (hr : r.Selects) : Answers (reference r) := by
  refine answers_of_leaf rfl (regular_of_leaf rfl rfl rfl) (begins_reference hr)
    fun gap rest hfollows => (takes_reference hr hfollows).imp ?_
  rintro nodes ⟨tree, rfl, htree⟩
  exact ⟨tree, rfl, reads_reference htree⟩

theorem answers_existence {r : Reference} (hr : r.Selects) : Answers (existence r) :=
  answers_of_compound rfl ⟨'e', _, rfl, by decide⟩ fun _ _ hfollows =>
    ⟨fun _ => takes_existence hr hfollows, fun he => absurd (regular_of_leaf rfl rfl rfl) he⟩

/-- The name of a test, behind the words before it. -/
theorem kindTest_name (test : KindTest) (negated : Bool) :
    (∃ c chars, test.name.toList = c :: chars ∧ c.isLower = true ∧
      ∀ d ∈ chars, isKindChar d = true) ∧ Value.Opens test.name.toList ∧
    ∀ r ∈ operationOrder.takeWhile (· != kindTestRule negated),
      grammar.onPrefix prefixDepth .loose r
        (worded (operationKeywords (kindTestRule negated)) test.name.toList) = .refused := by
  -- There are few enough names of tests to try them all.
  have hall : ∀ test ∈ [KindTest.number, .text] ++ Kind.all.map .exactly, ∀ negated,
      ∀ r ∈ operationOrder.takeWhile (· != kindTestRule negated),
        grammar.onPrefix prefixDepth .loose r
          (worded (operationKeywords (kindTestRule negated)) test.name.toList) = .refused := by
    decide +kernel
  have hmem : test ∈ [KindTest.number, .text] ++ Kind.all.map .exactly := by
    rcases test with kind | _ | _
    · exact List.mem_append_right _ (List.mem_map.mpr ⟨kind, kind.mem_all, rfl⟩)
    · decide
    · decide
  refine ⟨?_, ?_, hall test hmem negated⟩
  · rcases test with kind | _ | _
    · cases kind <;> exact ⟨_, _, rfl, by decide, by decide⟩
    · exact ⟨_, _, rfl, by decide, by decide⟩
    · exact ⟨_, _, rfl, by decide, by decide⟩
  · rcases test with kind | _ | _
    · cases kind <;> exact ⟨_, _, rfl, by decide⟩
    · exact ⟨_, _, rfl, by decide⟩
    · exact ⟨_, _, rfl, by decide⟩

theorem answers_kindTest {r : Reference} (hr : r.Selects) (test : KindTest) (negated : Bool) :
    Answers (kindTest r test negated) := by
  have hrule : kindTestRule negated ∈ operationOrder ∧
      operationPart (kindTestRule negated) = .typeName := by
    cases negated <;> decide
  have hwrite : (kindTest r test negated).write = r.write ++
      ([' '] ++ worded (operationKeywords (kindTestRule negated)) test.name.toList) := by
    have hwords : (if negated then " is not " else " is ").toList =
        [' '] ++ worded (operationKeywords (kindTestRule negated)) [] := by
      cases negated <;> decide
    show r.write ++ (if negated then " is not " else " is ").toList ++ test.name.toList = _
    rw [hwords, worded_eq _ test.name.toList]
    simp only [List.append_assoc]
  obtain ⟨hname, hopens, hbefore⟩ := kindTest_name test negated
  have hbegins := begins_reference hr
  have hopen : Value.Opens (kindTest r test negated).write := by
    rw [hwrite]
    exact (opens_of_begins hbegins).append _
  refine answers_of_compound rfl hopen fun gap rest hfollows =>
    ⟨fun _ => ?_, fun he => absurd (regular_of_leaf rfl rfl rfl) he⟩
  have hnext := operationNext_worded hrule.1 test.name.toList (gap ++ rest)
  have hpart : TakesTrailing (grammar.call .loose (operationPart (kindTestRule negated)))
      test.name.toList gap rest (IsNode .typeName test.name.toList Leafless) := by
    rw [hrule.2]
    exact Takes.trailing (Reference.takes_kindName hfollows hname)
  -- The rules tried before a kind test refuse its keyword.
  have hoperation := takes_operation hrule.1 (hopens.avoids _) (fun q hq => ?_) hpart
  · rw [hwrite]
    refine (takes_operated hbegins (takes_reference hr hnext.follows) hnext.unclosed.avoids
      hoperation).imp ?_
    rintro nodes ⟨_, rfl, text, place, tree, parts, rfl, htree, hparts⟩
    exact ⟨_, rfl, reads_kindTest htree hparts⟩
  · rw [← worded_append]
    exact refuses_of_prefix grammar_grounded (hbefore q hq) _

theorem regular_negation : Regular (negation e) ↔ Regular e := by
  rw [regular_iff]
  simp [isFinite, openOperands, parts]

theorem write_negation (e : Expression) : (negation e).write = worded [.notKeyword] e.write := rfl

theorem refuses_negation {text : List Char} (htext : Avoids grammar.blank text)
    (hoperand : Refuses (grammar.call .loose .operand) text) :
    Refuses (grammar.call .loose .operand) (worded [.notKeyword] text) := by
  have hall : ∀ r ∈ operandRules, r = .negation ∨
      grammar.onPrefix prefixDepth .loose r (worded [.notKeyword] []) = .refused := by
    decide +kernel
  have hbody : Refuses (loosely (afterKeywords [.notKeyword] (.rule .operand)))
      (worded [.notKeyword] text) :=
    refuses_worded (by decide) htext (refuses_call hoperand)
  refine refuses_operandForms (List.cons_ne_nil _ _) fun r hr => ?_
  rcases hall r hr with rfl | hrefused
  · exact refuses_call_of_body grammar_grounded hbody
  · rw [worded_eq]
    exact refuses_of_prefix grammar_grounded hrefused text

/-- A negation stalls with its operand. -/
theorem answers_negation (hoperand : Answers e) (he : ofNegation e = .ok (negation e)) :
    Answers (negation e) where
  opens := ⟨'n', _, rfl, by decide⟩
  operand gap rest hcloses := by
    obtain ⟨htakes, hstalls⟩ := hoperand.operand gap rest hcloses
    unfold OperandOutcome Outcome
    rw [regular_negation, write_negation]
    refine ⟨fun hregular => ?_, fun hother => ?_⟩
    · refine (takes_keywordForm .negation (hoperand.opens.avoids _) (htakes hregular)).imp ?_
      rintro nodes ⟨text, place, keyword, parts, rfl, tree, rfl, htree⟩
      exact ⟨_, rfl, reads_negation htree he⟩
    · rw [worded_append]
      have havoids := hoperand.opens.avoids (gap ++ rest)
      rcases hstalls hother with hrefuses | ⟨before, gap', after, heq, hgap, hafter, htaken⟩
      · exact Or.inl (refuses_negation havoids hrefuses)
      · rw [heq] at havoids ⊢
        rw [← worded_append]
        exact stalls_of_trailing (takes_keywordForm .negation havoids (Takes.trailing htaken)) hgap
          hafter
  compound hnegation := by cases hnegation
  simple hsimple := by cases hsimple

theorem regular_concatenation {arguments : List Expression} :
    Regular (concatenation arguments) ↔ ∀ a ∈ arguments, Regular a := by
  rw [regular_iff]
  simp [isFinite, openOperands, parts]

theorem answers_concatenation {arguments : List Expression} (hsome : arguments ≠ [])
    (harguments : ∀ a ∈ arguments, Answers a)
    (he : ofConcatenation arguments = .ok (concatenation arguments)) :
    Answers (concatenation arguments) := by
  refine answers_of_compound rfl ⟨'c', _, rfl, by decide⟩ fun gap rest _ => ?_
  obtain ⟨htakes, hrefuses⟩ := arguments_outcome hsome harguments (gap ++ rest)
  rw [← regular_concatenation] at htakes hrefuses
  constructor
  · intro hregular
    have hlist : Takes (grammar.call .loose .argumentList) (writeArguments (writeAll arguments))
        (gap ++ rest) (IsOne fun tree => IsArguments arguments [tree]) := by
      refine (htakes hregular).imp ?_
      rintro nodes ⟨text, place, trees, rfl, htrees⟩
      exact ⟨_, rfl, text, place, trees, rfl, htrees⟩
    refine Takes.trailing ((takes_concatenation hlist).imp ?_)
    rintro nodes ⟨_, rfl, text, place, keyword, list, rfl, hlist⟩
    exact ⟨_, rfl, reads_concatenation hlist he⟩
  · exact fun hother => Or.inl (refuses_concatenation (hrefuses hother))

/-! ### Operations after a subject -/

theorem write_words {rule : Rule} {words : String}
    (hwords : words.toList ++ [' '] = worded (operationKeywords rule) []) (subject text : List Char) :
    subject ++ ' ' :: (words.toList ++ ' ' :: text) =
      subject ++ ([' '] ++ worded (operationKeywords rule) text) := by
  rw [worded_eq, ← hwords]
  simp only [List.append_assoc, List.cons_append, List.nil_append]

theorem answers_membership {candidates : List Expression} {negated : Bool} (hsubject : Answers subject)
    (hunnegated : subject.isNegation = false) (hsome : candidates ≠ [])
    (hcandidates : ∀ c ∈ candidates, Answers c)
    (he : ofMembership subject candidates negated = .ok (membership subject candidates negated)) :
    Answers (membership subject candidates negated) := by
  have hrule : membershipRule negated ∈ operationOrder ∧
      operationPart (membershipRule negated) = .argumentList ∧
      (membershipKeyword negated).toList ++ [' '] =
        worded (operationKeywords (membershipRule negated)) [] := by
    cases negated <;> decide
  obtain ⟨hmem, hlist, hwords⟩ := hrule
  have hregular : Regular (membership subject candidates negated) ↔
      (subject.isSimple = true ∧ Regular subject) ∧ ∀ c ∈ candidates, Regular c := by
    rw [regular_iff]
    simp [isFinite, openOperands, parts, and_assoc]
  exact answers_operation hmem (by rw [hlist]; decide) (write_words hwords _ _) rfl hregular hsubject
    hunnegated (part_of_arguments hlist hsome hcandidates)
    fun _ _ _ _ htree hnodes => reads_membership htree hnodes he

theorem answers_range {lower upper : Expression} {negated : Bool} (hsubject : Answers subject)
    (hunnegated : subject.isNegation = false) (hlower : Answers lower) (hupper : Answers upper)
    (he : ofRange subject [lower, upper] negated = .ok (range subject lower upper negated)) :
    Answers (range subject lower upper negated) := by
  have hrule : rangeRule negated ∈ operationOrder ∧
      operationPart (rangeRule negated) = .argumentList ∧
      (rangeKeyword negated).toList ++ [' '] = worded (operationKeywords (rangeRule negated)) [] := by
    cases negated <;> decide
  obtain ⟨hmem, hlist, hwords⟩ := hrule
  have hregular : Regular (range subject lower upper negated) ↔
      (subject.isSimple = true ∧ Regular subject) ∧ ∀ b ∈ [lower, upper], Regular b := by
    rw [regular_iff]
    simp [isFinite, openOperands, parts, and_assoc]
  have hbounds : ∀ b ∈ [lower, upper], Answers b := by
    simp [hlower, hupper]
  exact answers_operation hmem (by rw [hlist]; decide) (write_words hwords _ _) rfl hregular hsubject
    hunnegated (part_of_arguments hlist (List.cons_ne_nil _ _) hbounds)
    fun _ _ _ _ htree hnodes => reads_range htree hnodes he

theorem answers_matching {op : MatchOperator} {argument : Expression} (hsubject : Answers subject)
    (hunnegated : subject.isNegation = false) (hargument : Answers argument)
    (he : ofMatching op subject argument = .ok (matching op subject argument))
    (hpattern : ∀ pattern, fixedPattern? op argument = some pattern →
      (Regex.read pattern).isSome = true) : Answers (matching op subject argument) := by
  have hrule : matchingRule op ∈ operationOrder ∧ operationPart (matchingRule op) = .primary ∧
      op.keyword.toList ++ [' '] = worded (operationKeywords (matchingRule op)) [] := by
    cases op <;> decide
  obtain ⟨hmem, hprimary, hwords⟩ := hrule
  obtain ⟨_, _, haccepts⟩ := ofMatching_eq_ok he
  have hregular : Regular (matching op subject argument) ↔
      (subject.isSimple = true ∧ Regular subject) ∧ argument.isSimple = true ∧ Regular argument := by
    rw [regular_iff]
    simp [isFinite, openOperands, parts, and_assoc, and_left_comm]
  exact answers_operation hmem (by rw [hprimary]; decide) (write_words hwords _ _) rfl hregular
    hsubject hunnegated (part_of_argument hprimary hargument haccepts)
    fun _ _ _ _ htree hnodes => reads_matching htree hnodes he hpattern

theorem answers_annotationTest {name : Expression} (hsubject : Answers subject)
    (hunnegated : subject.isNegation = false) (hname : Answers name)
    (he : ofAnnotationTest subject name = .ok (annotationTest subject name)) :
    Answers (annotationTest subject name) := by
  have hwords : " has annotation ".toList =
      [' '] ++ worded (operationKeywords .hasAnnotationOperation) [] := by
    decide
  have hwrite : (annotationTest subject name).write =
      subject.write ++ ([' '] ++ worded (operationKeywords .hasAnnotationOperation) name.write) := by
    show subject.write ++ " has annotation ".toList ++ name.write = _
    rw [hwords, worded_eq _ name.write]
    simp only [List.append_assoc]
  have hregular : Regular (annotationTest subject name) ↔
      (subject.isSimple = true ∧ Regular subject) ∧ name.isSimple = true ∧ Regular name := by
    rw [regular_iff]
    simp [isFinite, openOperands, parts, and_assoc, and_left_comm]
  exact answers_operation (by decide) (by decide) hwrite rfl hregular hsubject hunnegated
    (part_of_argument rfl hname (ofAnnotationTest_eq_ok he).2)
    fun _ _ _ _ htree hnodes => reads_annotationTest htree hnodes he

/-! ### Operations between two operands -/

/-- An operation that is written between its operands, with parentheses around it. -/
structure Infix (left right : Expression) (symbol : String) (e : Expression) : Prop where
  write : e.write = writeBinary symbol left.write right.write
  simple : e.isSimple = true
  finite : e.isFinite = true
  closed : e.openOperands = []
  parts : e.parts = [left, right]

theorem infix_of_ofArithmetic {left right : Expression} {op : ArithmeticOperator}
    (he : ofArithmetic op left right = .ok e) : Infix left right op.symbol e := by
  unfold ofArithmetic at he
  dsimp only at he
  split at he
  · rename_i sum hsum
    split at he
    · have hsymbol : sum.symbol = op.symbol := by
        cases op <;> cases hsum <;> rfl
      unfold ofTemporal at he
      split at he <;> cases he
      rw [← hsymbol]
      exact ⟨rfl, rfl, rfl, rfl, rfl⟩
    · split at he <;> cases he
      exact ⟨rfl, rfl, rfl, rfl, rfl⟩
  · split at he <;> cases he
    exact ⟨rfl, rfl, rfl, rfl, rfl⟩

theorem infix_of_ofBinary {left right : Expression} {op : BinaryOperator}
    (he : ofBinary left right op = .ok e) : Infix left right op.symbol e := by
  cases op with
  | arithmetic op => exact infix_of_ofArithmetic he
  | relational op =>
      simp only [ofBinary, ofRelational] at he
      split at he <;> cases he
      exact ⟨rfl, rfl, rfl, rfl, rfl⟩
  | logical op =>
      obtain ⟨_, _, he⟩ := bind_eq_ok he
      obtain ⟨_, _, he⟩ := bind_eq_ok he
      cases he
      exact ⟨rfl, rfl, rfl, rfl, rfl⟩

theorem writeBinary_eq (symbol : String) (left right : List Char) :
    writeBinary symbol left right =
      ['('] ++ ((left ++ ([' '] ++ (symbol.toList ++ ([' '] ++ right)))) ++ [')']) := by
  simp [writeBinary]

theorem answers_binary {left right : Expression} {op : BinaryOperator} (hleft : Answers left)
    (hright : Answers right) (he : ofBinary left right op = .ok e) : Answers e := by
  have hform := infix_of_ofBinary he
  have hregular : Regular e ↔ Regular left ∧ Regular right := by
    rw [regular_iff, hform.finite, hform.closed, hform.parts]
    simp
  have hbegins : Begins primaryHeads e.write := by
    rw [hform.write, writeBinary_eq]
    exact begins_append (by decide) _
  refine answers_of_simple hform.simple hbegins fun gap rest _ => ?_
  have hclosed : Closed ([')'] ++ (gap ++ rest)) := closed_cons (by decide) _
  have hrightOpens := hright.opens.avoids ([')'] ++ (gap ++ rest))
  -- The operator stops the left operand, and the parenthesis the right one.
  obtain ⟨hleftTakes, hleftStalls⟩ := hleft.operand [' '] _
    (closes_operator op (right.write ++ ([')'] ++ (gap ++ rest))))
  obtain ⟨hrightTakes, hrightStalls⟩ := hright.operand [] _ hclosed.closes
  unfold SubjectOutcome Outcome
  rw [hregular, hform.write, writeBinary_eq]
  constructor
  · rintro ⟨hl, hr⟩
    have hchain := takes_chain (hleftTakes hl) hrightOpens (takesTrailing_nil.mp (hrightTakes hr))
      hclosed
    have hopens : Avoids grammar.blank
        (left.write ++ ([' '] ++ (op.symbol.toList ++ ([' '] ++ right.write))) ++ [')'] ++
          (gap ++ rest)) := by
      rw [List.append_assoc, List.append_assoc]
      exact hleft.opens.avoids _
    refine Takes.trailing ((takes_parentheses hopens hchain).imp ?_)
    rintro nodes ⟨_, rfl, text, place, l, operator, r, rfl, hltree, hoperator, hrtree⟩
    exact ⟨_, rfl, reads_chain hltree hrtree hoperator he⟩
  · intro hother
    have hstalls : Stalls Unclosed (grammar.call .loose .expression)
        (left.write ++ ([' '] ++ (op.symbol.toList ++ ([' '] ++
          (right.write ++ ([')'] ++ (gap ++ rest))))))) := by
      -- The expression stalls at the first operand that is not regular.
      by_cases hl : Regular left
      · exact stalls_chain (hleftTakes hl) hrightOpens (hrightStalls fun hr => hother ⟨hl, hr⟩)
      · exact stalls_expression (hleftStalls hl)
    have hrefuses := refuses_parentheses (hleft.opens.avoids _) hstalls
    simp only [List.append_assoc] at hrefuses ⊢
    exact hrefuses

/-! ## All forms -/

/-- What the grammar makes of the text of an expression that was read. -/
theorem answers_of_built (he : Built e) : Unnegated e → Answers e := by
  -- Parts of an unnegated expression are unnegated, and no subject is a negation.
  induction he with
  | constant hcontent => exact fun _ => answers_constant hcontent
  | now =>
      exact fun _ => answers_of_leaf rfl (regular_of_leaf rfl rfl rfl)
        ⟨"now".toList, by decide, [], rfl⟩ fun _ _ => takes_now
  | reference hr => exact fun _ => answers_reference hr
  | key =>
      exact fun _ => answers_of_leaf rfl (regular_of_leaf rfl rfl rfl)
        ⟨"#".toList, by decide, [], rfl⟩ fun _ _ _ => takes_key
  | existence hr => exact fun _ => answers_existence hr
  | kindTest hr test negated => exact fun _ => answers_kindTest hr test negated
  | negation _ he ih =>
      exact fun hun => answers_negation (ih (hun.part (List.mem_cons_self ..))) he
  | binary _ _ he ihLeft ihRight =>
      intro hun
      have hparts := (infix_of_ofBinary he).parts
      exact answers_binary (ihLeft (hun.part (by simp [hparts])))
        (ihRight (hun.part (by simp [hparts]))) he
  | membership _ hsome _ he ih ihs =>
      exact fun hun => answers_membership (ih (hun.part (by simp [parts])))
        (hun _ .refl _ (by simp [openOperands])) hsome
        (fun c hc => ihs c hc (hun.part (by simp [parts, hc]))) he
  | range _ _ _ he ih ihLower ihUpper =>
      exact fun hun => answers_range (ih (hun.part (by simp [parts])))
        (hun _ .refl _ (by simp [openOperands])) (ihLower (hun.part (by simp [parts])))
        (ihUpper (hun.part (by simp [parts]))) he
  | matching _ _ he hpattern ih ihArgument =>
      exact fun hun => answers_matching (ih (hun.part (by simp [parts])))
        (hun _ .refl _ (by simp [openOperands])) (ihArgument (hun.part (by simp [parts]))) he hpattern
  | concatenation _ he ihs =>
      exact fun hun => answers_concatenation (List.cons_ne_nil _ _)
        (fun a ha => ihs a ha (hun.part (by simpa [parts] using ha))) he
  | annotationTest _ _ he ih ihName =>
      exact fun hun => answers_annotationTest (ih (hun.part (by simp [parts])))
        (hun _ .refl _ (by simp [openOperands])) (ihName (hun.part (by simp [parts]))) he

end DocQuery.Expression
