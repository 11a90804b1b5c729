import DocQuery.Expression.Printer
import DocQuery.Proofs.Language.Operands
import DocQuery.Proofs.Value.Containers

/-!
# Where reading comes to a halt

An operation in the place of a subject is written without parentheses around it, so that what the
grammar takes for an operand may end before the words of the next operation. Nothing that surrounds
an operand can go on there: reading stops in the middle of the text, and every bracket around the
place is refused as a whole.

Main names:

* `Unclosed`, `Stalls` — what can be left where nothing goes on, and runners that stop there;
* `takes_chain`, `stalls_chain` — an operation between two operands;
* `takes_parentheses`, `refuses_parentheses` — brackets;
* `takes_arguments`, `refuses_arguments` — lists of arguments.
-/

namespace DocQuery.Language

open Grammar

variable {gap rest text left right : List Char} {run : Runner Rule} {good good' : Tree → Prop}

/-! ## What is left -/

/-- Something comes next, and it closes no expression. -/
def Unclosed (text : List Char) : Prop :=
  ∃ c tail, text = c :: tail ∧ grammar.blank.contains c = false ∧ c ∉ [',', ')']

theorem unclosed_append {words : List Char}
    (hwords : (words.head?.any fun c => !grammar.blank.contains c && !([',', ')'].contains c)) = true)
    (rest : List Char) : Unclosed (words ++ rest) := by
  cases words with
  | nil => cases hwords
  | cons c words =>
      rw [List.head?_cons, Option.any_some, Bool.and_eq_true] at hwords
      exact ⟨c, words ++ rest, rfl, by simpa using hwords.1, by simpa using hwords.2⟩

theorem Unclosed.avoids (htext : Unclosed text) : Avoids grammar.blank text := by
  obtain ⟨c, tail, rfl, hblank, _⟩ := htext
  exact avoids_cons hblank tail

theorem Unclosed.not_prefix (htext : Unclosed text) {c : Char} (hc : c ∈ [',', ')']) :
    ¬ [c] <+: text := by
  obtain ⟨d, tail, rfl, _, hd⟩ := htext
  refine not_prefix_cons ?_ _ _
  rintro rfl
  exact hd hc

theorem OperationNext.unclosed (htext : OperationNext text) : Unclosed text := by
  obtain ⟨rule, hrule, more, rfl⟩ := htext
  have hall : ∀ rule ∈ operationOrder, ((worded (operationKeywords rule) []).head?.any
      fun c => !grammar.blank.contains c && !([',', ')'].contains c)) = true := by
    decide
  rw [worded_eq]
  exact unclosed_append (hall rule hrule) more

theorem unclosed_operator (op : BinaryOperator) (rest : List Char) :
    Unclosed (op.symbol.toList ++ rest) := by
  have hall : ∀ op ∈ BinaryOperator.all, (op.symbol.toList.head?.any
      fun c => !grammar.blank.contains c && !([',', ')'].contains c)) = true := by
    decide
  exact unclosed_append (hall op (mem_operators op)) rest

/-- The text ends, or a comma or a parenthesis comes next. -/
def Closed (rest : List Char) : Prop :=
  ∀ c tail, rest = c :: tail → c ∈ [',', ')']

theorem closed_nil : Closed [] := by
  rintro c tail ⟨⟩

theorem closed_cons {c : Char} (hc : c ∈ [',', ')']) (tail : List Char) : Closed (c :: tail) := by
  rintro c' tail' ⟨⟩
  exact hc

theorem Closed.closes (hrest : Closed rest) : Closes [] rest := by
  cases rest with
  | nil => exact closes_nil
  | cons c tail => exact closes_cons (hrest c tail rfl) tail

theorem Closed.refuses_binaryOperator (hrest : Closed rest) :
    Refuses (grammar.call .loose .binaryOperator) rest := by
  have hall : ∀ c ∈ [',', ')'],
      grammar.onPrefix prefixDepth .loose .binaryOperator [c] = .refused := by
    decide +kernel
  cases rest with
  | nil =>
      exact refuses_call_nil grammar_grounded (by decide : grammar.isSolid 4 .binaryOperator = true)
        .loose
  | cons c tail =>
      exact refuses_of_prefix grammar_grounded (hall c (hrest c tail rfl)) tail

/-- A runner fails on a text, or stops in the middle, where what is left behind some blanks has a
property. -/
def Stalls (next : List Char → Prop) (run : Runner Rule) (text : List Char) : Prop :=
  Refuses run text ∨ ∃ before gap after, text = before ++ (gap ++ after) ∧ IsBlank gap ∧ next after ∧
    Takes run before (gap ++ after) fun _ => True

theorem stalls_of_trailing {next : List Char → Prop} {nodes : List Tree → Prop}
    (htakes : TakesTrailing run text gap rest nodes) (hgap : IsBlank gap) (hrest : next rest) :
    Stalls next run (text ++ (gap ++ rest)) := by
  obtain ⟨taken, left, rfl, htakes⟩ := htakes
  refine Or.inr ⟨text ++ taken, left, rest, by simp, fun c hc => ?_, hrest,
    htakes.imp fun _ _ => trivial⟩
  exact hgap c (List.mem_append_right _ hc)

/-- A rule that leaves a node, with blanks between its parts. -/
theorem takes_normal (rule : Rule) {p : Pattern Rule} (hmode : grammar.mode rule = .normal)
    (hp : grammar.body rule = p) {nodes : List Tree → Prop} (htakes : Takes (loosely p) text rest nodes) :
    Takes (grammar.call .loose rule) text rest (IsNode rule text nodes) := by
  refine takes_call_node grammar_grounded (by rw [hmode]; decide) ?_
  unfold Grammar.callBody
  rw [hmode, hp]
  exact htakes

/-- A repetition with one round. -/
theorem takes_star_once {p : Pattern Rule} {nodes : List Tree → Prop}
    (hp : Takes (loosely p) text (gap ++ rest) nodes) (hgap : IsBlank gap)
    (hrest : Avoids grammar.blank rest) (hrefuses : Refuses (loosely p) rest) :
    Takes (loosely p.star) text (gap ++ rest) nodes := by
  have hdone : Repeats (loosely p) grammar.blank ⟨.loose, true⟩ [] (gap ++ rest) Leafless :=
    .done gap (between_blank hgap hrest) hrefuses rfl
  have hstar : Takes (loosely p.star) (text ++ []) (gap ++ rest) nodes :=
    takes_star hp hdone then_leafless
  rwa [List.append_nil] at hstar

/-! ## Whole expressions -/

/-- The operator and the right operand of an operation. -/
abbrev linkPattern : Pattern Rule :=
  .seq (.rule .binaryOperator) (.rule .operand)

/-- Operands with operators between them. -/
abbrev chainPattern : Pattern Rule :=
  .seq (.rule .operand) linkPattern.star

theorem takes_expression {nodes : List Tree → Prop} (htakes : Takes (loosely chainPattern) text rest nodes) :
    Takes (grammar.call .loose .expression) text rest (IsNode .expression text nodes) :=
  takes_normal .expression rfl rfl htakes

/-- Nothing after the first operand is a link. -/
theorem takes_single {nodes : List Tree → Prop} (hgap : IsBlank gap) (hrest : Avoids grammar.blank rest)
    (htakes : TakesTrailing (grammar.call .loose .operand) text gap rest nodes)
    (hlink : Refuses (loosely linkPattern) rest) :
    TakesTrailing (loosely chainPattern) text gap rest nodes := by
  have hoperand : TakesTrailing (loosely (.rule .operand)) text gap rest nodes := htakes
  exact takesTrailing_seq_empty hoperand (between_blank hgap hrest) (takes_star_none hlink)

/-- An operand alone is a whole expression. -/
theorem takes_lone (htakes : Takes (grammar.call .loose .operand) text rest (IsOne good))
    (hrest : Closed rest) :
    Takes (grammar.call .loose .expression) text rest
      (IsOne fun tree => ∃ text place operand, tree = .mk .expression text place [operand] ∧
        good operand) := by
  have hbody := takesTrailing_nil.mp (takes_single isBlank_nil hrest.closes.avoids
    (takesTrailing_nil.mpr htakes) (refuses_seq_left (refuses_call hrest.refuses_binaryOperator)))
  refine (takes_expression hbody).imp ?_
  rintro nodes ⟨place, children, rfl, operand, rfl, hoperand⟩
  exact ⟨_, rfl, _, _, _, rfl, hoperand⟩

/-- What stalls within a chain stalls within the expression. -/
theorem stalls_of_chain {nodes : List Tree → Prop} (hgap : IsBlank gap) (hrest : Unclosed rest)
    (htakes : TakesTrailing (loosely chainPattern) text gap rest nodes) :
    Stalls Unclosed (grammar.call .loose .expression) (text ++ (gap ++ rest)) :=
  stalls_of_trailing (htakes.lift fun _ _ _ htakes => takes_expression htakes |>.imp
    fun _ _ => trivial) hgap hrest

/-- An expression stalls with its first operand. -/
theorem stalls_expression
    (hoperand : Stalls OperationNext (grammar.call .loose .operand) text) :
    Stalls Unclosed (grammar.call .loose .expression) text := by
  rcases hoperand with hrefuses | ⟨before, gap, after, rfl, hgap, hafter, htakes⟩
  · exact Or.inl (refuses_call_of_body grammar_grounded (refuses_seq_left (refuses_call hrefuses)))
  · exact stalls_of_chain hgap hafter.unclosed (takes_single hgap hafter.unclosed.avoids
      (Takes.trailing htakes) (refuses_seq_left (refuses_call (hafter.refuses (by decide)))))

section Chains

variable {op : BinaryOperator}

/-- An operation between two operands. -/
theorem takes_chain
    (hleft : TakesTrailing (grammar.call .loose .operand) left [' ']
      (op.symbol.toList ++ ([' '] ++ (right ++ rest))) (IsOne good))
    (hopens : Avoids grammar.blank (right ++ rest))
    (hright : Takes (grammar.call .loose .operand) right rest (IsOne good')) (hrest : Closed rest) :
    Takes (grammar.call .loose .expression)
      (left ++ ([' '] ++ (op.symbol.toList ++ ([' '] ++ right)))) rest
      (IsOne fun tree => ∃ text place l operator r,
        tree = .mk .expression text place [l, operator, r] ∧ good l ∧
          operator.rule = operatorRule op ∧ good' r) := by
  -- There is one round of the repetition, and no operator for another one.
  have hlink : Takes (loosely linkPattern) (op.symbol.toList ++ ([' '] ++ right)) ([] ++ rest)
      fun nodes => ∃ operator r, nodes = [operator, r] ∧ operator.rule = operatorRule op ∧
        good' r := by
    refine takes_seq [' '] (takes_call (takes_binaryOperator op _))
      (between_blank isBlank_space hopens) (takes_call hright) ?_
    rintro nodes nodes' ⟨operator, rfl, hoperator⟩ ⟨r, rfl, hr⟩
    exact ⟨operator, r, rfl, hoperator, hr⟩
  have hstar := takes_star_once hlink isBlank_nil hrest.closes.avoids
    (refuses_seq_left (refuses_call hrest.refuses_binaryOperator))
  have htext : op.symbol.toList ++ ([' '] ++ (right ++ rest)) =
      op.symbol.toList ++ ([' '] ++ right) ++ rest := by
    simp only [List.append_assoc]
  have hbetween := between_blank isBlank_space (unclosed_operator op ([' '] ++ (right ++ rest))).avoids
  rw [htext] at hleft hbetween
  have hbody : Takes (loosely chainPattern) _ rest _ :=
    takes_seq_trailing hleft hbetween hstar then_intro
  refine (takes_expression hbody).imp ?_
  rintro nodes ⟨place, children, rfl, _, _, rfl, ⟨l, rfl, hl⟩, operator, r, rfl, hoperator, hr⟩
  exact ⟨_, rfl, _, _, l, operator, r, rfl, hl, hoperator, hr⟩

/-- An operation stalls with its right operand. Where the right operand is refused, so is the
operator. -/
theorem stalls_chain {nodes : List Tree → Prop}
    (hleft : TakesTrailing (grammar.call .loose .operand) left [' ']
      (op.symbol.toList ++ ([' '] ++ text)) nodes) (hopens : Avoids grammar.blank text)
    (hright : Stalls OperationNext (grammar.call .loose .operand) text) :
    Stalls Unclosed (grammar.call .loose .expression)
      (left ++ ([' '] ++ (op.symbol.toList ++ ([' '] ++ text)))) := by
  have hoperator := unclosed_operator op ([' '] ++ text)
  have hbetween := between_blank isBlank_space hoperator.avoids
  -- Either nothing is read of the right operand and the chain ends before the operator, or it
  -- stalls where the operand does.
  rcases hright with hrefuses | ⟨before, gap, after, rfl, hgap, hafter, htakes⟩
  · exact stalls_of_chain isBlank_space hoperator (takes_single isBlank_space hoperator.avoids hleft
      (refuses_seq_right [' '] (takes_call (takes_binaryOperator op _))
        (between_blank isBlank_space hopens) (refuses_call hrefuses)))
  · have hlink : Takes (loosely linkPattern) (op.symbol.toList ++ ([' '] ++ before)) (gap ++ after)
        fun _ => True :=
      takes_seq [' '] (takes_call (takes_binaryOperator op _)) (between_blank isBlank_space hopens)
        (takes_call htakes) fun _ _ _ _ => trivial
    have hstar := takes_star_once hlink hgap hafter.unclosed.avoids
      (refuses_seq_left (refuses_call (hafter.refuses (by decide))))
    have htext : op.symbol.toList ++ ([' '] ++ (before ++ (gap ++ after))) =
        op.symbol.toList ++ ([' '] ++ before) ++ (gap ++ after) := by
      simp only [List.append_assoc]
    rw [htext] at hleft hbetween ⊢
    have hbody : Takes (loosely chainPattern) _ (gap ++ after) fun _ => True :=
      takes_seq_trailing hleft hbetween hstar fun _ _ _ _ => trivial
    have hstalls := stalls_of_chain hgap hafter.unclosed (Takes.trailing hbody)
    simp only [List.append_assoc] at hstalls ⊢
    exact hstalls

end Chains

/-! ## Brackets -/

/-- The part of a text up to a closing parenthesis is refused if it stalls. -/
theorem refuses_closing {p q : Pattern Rule} (hp : Stalls Unclosed (loosely p) text)
    (hq : ∀ after, Unclosed after → Refuses (loosely q) after) : Refuses (loosely (.seq p q)) text := by
  rcases hp with hrefuses | ⟨before, gap, after, rfl, hgap, hafter, htakes⟩
  · exact refuses_seq_left hrefuses
  · exact refuses_seq_right gap htakes (between_blank hgap hafter.avoids) (hq after hafter)

theorem takes_parentheses {nodes : List Tree → Prop} (hopens : Avoids grammar.blank (text ++ [')'] ++ rest))
    (htakes : Takes (grammar.call .loose .expression) text ([')'] ++ rest) nodes) :
    Takes (grammar.call .loose .primary) (['('] ++ (text ++ [')'])) rest nodes := by
  have hclose : Avoids grammar.blank ([')'] ++ rest) := avoids_cons (by decide) _
  have hinner : Takes (loosely (.seq (.rule .expression) (.text [')']))) (text ++ ([] ++ [')'])) rest
      nodes :=
    takes_seq [] (takes_call htakes) (between_blank isBlank_nil hclose) (takes_text [')'])
      then_leafless
  rw [List.nil_append] at hinner
  have hwhole := takes_seq [] (takes_text ['(']) (between_blank isBlank_nil hopens) hinner
    leafless_then
  rw [List.nil_append] at hwhole
  exact takes_call_silent grammar_grounded rfl (takes_choice_left hwhole)

theorem refuses_parentheses (hopens : Avoids grammar.blank text)
    (hstalls : Stalls Unclosed (grammar.call .loose .expression) text) :
    Refuses (grammar.call .loose .primary) (['('] ++ text) := by
  have hinner : Refuses (loosely (.seq (.rule .expression) (.text [')']))) text :=
    refuses_closing hstalls fun after hafter => refuses_text (hafter.not_prefix (by decide))
  have hfirst : Refuses (loosely (.seq (.text ['(']) (.seq (.rule .expression) (.text [')']))))
      (['('] ++ text) :=
    refuses_seq_right [] (takes_text ['(']) (between_blank isBlank_nil hopens) hinner
  have hall : ∀ rule ∈ [Rule.literal, .selection, .relativeSelection, .keyReference],
      grammar.onPrefix prefixDepth .loose rule ['('] = .refused := by
    decide +kernel
  have hothers : Refuses (loosely (.firstOf
      ([Rule.literal, .selection, .relativeSelection, .keyReference].map .rule))) (['('] ++ text) := by
    refine refuses_firstOf fun q hq => ?_
    obtain ⟨rule, hrule, rfl⟩ := List.mem_map.mp hq
    have hrefuses := refuses_of_prefix grammar_grounded (hall rule hrule) text
    exact refuses_call hrefuses
  exact refuses_call_of_body grammar_grounded (refuses_choice hfirst hothers)

/-! ## Arguments -/

section Arguments

variable {α : Type} {write : α → List Char} {reads : α → Tree → Prop}

/-- An argument is taken up to the comma or the parenthesis after it. -/
def TakesArgument (text : List Char) (good : Tree → Prop) : Prop :=
  ∀ rest, Closed rest → Takes (grammar.call .loose .expression) text rest (IsOne good)

/-- An argument stalls before the comma or the parenthesis after it. -/
def StallsArgument (text : List Char) : Prop :=
  ∀ rest, Closed rest → Stalls Unclosed (grammar.call .loose .expression) (text ++ rest)

/-- A comma and a further argument. -/
abbrev furtherPattern : Pattern Rule :=
  .seq (.text [',']) (.rule .expression)

/-- The text of the arguments after the first one. -/
def furtherText (write : α → List Char) (as : List α) : List Char :=
  as.flatMap fun a => [','] ++ ([' '] ++ write a)

theorem closed_further (write : α → List Char) (as : List α) (rest : List Char) :
    Closed (furtherText write as ++ ([')'] ++ rest)) := by
  cases as with
  | nil => exact closed_cons (by decide) rest
  | cons a as => exact closed_cons (by decide) _

theorem writeArguments_cons (a : α) (as : List α) :
    Expression.writeArguments ((a :: as).map write) =
      ['('] ++ ((write a ++ furtherText write as) ++ [')']) := by
  unfold Expression.writeArguments furtherText
  rw [List.map_cons, Value.intercalate_cons, List.flatMap_map]
  rfl

theorem not_prefix_closing (rest : List Char) : ¬ [','] <+: [')'] ++ rest :=
  not_prefix_cons (by decide) _ _

/-- A further argument is a round of the repetition. -/
theorem takes_further {text rest : List Char} {nodes : List Tree → Prop} (hopens : Value.Opens text)
    (htakes : Takes (grammar.call .loose .expression) text rest nodes) :
    Takes (loosely furtherPattern) ([','] ++ ([' '] ++ text)) rest nodes :=
  takes_seq [' '] (takes_text [',']) (between_blank isBlank_space (hopens.avoids rest))
    (takes_call htakes) leafless_then

theorem repeats_further (as : List α) (hopens : ∀ a ∈ as, Value.Opens (write a))
    (has : ∀ a ∈ as, TakesArgument (write a) (reads a)) (rest : List Char) :
    Repeats (loosely furtherPattern) grammar.blank ⟨.loose, true⟩ (furtherText write as)
      ([')'] ++ rest) (List.Forall₂ reads as) := by
  induction as with
  | nil =>
      exact Repeats.done [] (between_blank isBlank_nil (avoids_cons (by decide) _))
        (refuses_seq_left (refuses_text (not_prefix_closing rest))) .nil
  | cons a as ih =>
      obtain ⟨hopen, hopens⟩ := List.forall_mem_cons.mp hopens
      obtain ⟨ha, has⟩ := List.forall_mem_cons.mp has
      exact Repeats.round [] _ (between_blank isBlank_nil (avoids_cons (by decide) _))
        (List.cons_ne_nil _ _) (takes_further hopen (ha _ (closed_further write as rest)))
        (ih hopens has) (forall₂_append_one a as)

theorem takes_arguments (a : α) (as : List α) (hopens : ∀ b ∈ a :: as, Value.Opens (write b))
    (has : ∀ b ∈ a :: as, TakesArgument (write b) (reads b)) (rest : List Char) :
    Takes (grammar.call .loose .argumentList) (Expression.writeArguments ((a :: as).map write)) rest
      (IsOne fun tree => ∃ text place arguments, tree = .mk .argumentList text place arguments ∧
        List.Forall₂ reads (a :: as) arguments) := by
  obtain ⟨hopen, hopens⟩ := List.forall_mem_cons.mp hopens
  obtain ⟨ha, has⟩ := List.forall_mem_cons.mp has
  have hclose : Avoids grammar.blank ([')'] ++ rest) := avoids_cons (by decide) _
  have hfirst : Between grammar.blank ⟨.loose, true⟩ [] (furtherText write as ++ ([')'] ++ rest)) := by
    refine between_blank isBlank_nil ?_
    cases as with
    | nil => exact hclose
    | cons b bs => exact avoids_cons (by decide) _
  -- After the first argument come the others, each with a comma before it.
  have hothers := takes_seq [] (takes_star_of_repeats hfirst (repeats_further as hopens has rest))
    (between_blank isBlank_nil hclose) (takes_text [')']) then_leafless
  rw [List.nil_append] at hothers
  have htakes := ha _ (closed_further write as rest)
  rw [← List.append_assoc] at htakes hfirst
  have hinner := takes_seq [] (takes_call htakes) hfirst hothers (forall₂_append_one a as)
  have hbody := takes_seq [] (takes_text ['(']) (between_blank isBlank_nil (hopen.append _ |>.avoids _))
    hinner leafless_then
  rw [writeArguments_cons]
  simp only [List.nil_append, List.append_assoc] at hbody ⊢
  refine (takes_normal .argumentList rfl rfl hbody).imp ?_
  rintro nodes ⟨place, children, rfl, hchildren⟩
  exact ⟨_, rfl, _, _, _, rfl, hchildren⟩

/-- The repetition of further arguments ends within a text, before something else than a closing
parenthesis. -/
def EndsWithin (text : List Char) : Prop :=
  ∃ taken gap left, text = taken ++ (gap ++ left) ∧ IsBlank gap ∧ Avoids grammar.blank left ∧
    ¬ [')'] <+: left ∧
    Repeats (loosely furtherPattern) grammar.blank ⟨.loose, true⟩ taken (gap ++ left) fun _ => True

/-- An argument that stalls is not taken at all, or it is taken in part. -/
theorem endsWithin_stalling {a : α} (bs : List α) (hopen : Value.Opens (write a))
    (ha : StallsArgument (write a)) (rest : List Char) :
    EndsWithin (furtherText write (a :: bs) ++ ([')'] ++ rest)) := by
  have hcomma : ∀ text, Avoids grammar.blank ([','] ++ text) := fun text =>
    avoids_cons (by decide) text
  have htext : furtherText write (a :: bs) ++ ([')'] ++ rest) =
      [','] ++ ([' '] ++ (write a ++ (furtherText write bs ++ ([')'] ++ rest)))) := by
    simp only [furtherText, List.flatMap_cons, List.append_assoc]
  have hnext := hopen.avoids (furtherText write bs ++ ([')'] ++ rest))
  rw [htext]
  rcases ha _ (closed_further write bs rest) with hrefuses |
    ⟨before, gap, after, heq, hgap, hafter, htakes⟩
  · refine ⟨[], [], _, rfl, isBlank_nil, hcomma _, not_prefix_cons (by decide) _ _, ?_⟩
    exact Repeats.done [] (between_blank isBlank_nil (hcomma _))
      (refuses_seq_right [' '] (takes_text [',']) (between_blank isBlank_space hnext)
        (refuses_call hrefuses)) trivial
  · rw [heq] at hnext ⊢
    have hround : Takes (loosely furtherPattern) ([','] ++ ([' '] ++ before)) (gap ++ after)
        fun _ => True :=
      takes_seq [' '] (takes_text [',']) (between_blank isBlank_space hnext) (takes_call htakes)
        fun _ _ _ _ => trivial
    have hdone : Repeats (loosely furtherPattern) grammar.blank ⟨.loose, true⟩ [] (gap ++ after)
        fun _ => True :=
      .done gap (between_blank hgap hafter.avoids)
        (refuses_seq_left (refuses_text (hafter.not_prefix (by decide)))) trivial
    refine ⟨[] ++ ([','] ++ ([' '] ++ before) ++ []), gap, after, by simp, hgap, hafter.avoids,
      hafter.not_prefix (by decide), ?_⟩
    exact .round [] _ (between_blank isBlank_nil (hcomma _)) (List.cons_ne_nil _ _) hround hdone
      fun _ _ _ _ => trivial

/-- The repetition of further arguments ends at one that stalls, before it or within it. -/
theorem endsWithin_append (as bs : List α) {a : α} (hopens : ∀ b ∈ as, Value.Opens (write b))
    (has : ∀ b ∈ as, TakesArgument (write b) (reads b)) (hopen : Value.Opens (write a))
    (ha : StallsArgument (write a)) (rest : List Char) :
    EndsWithin (furtherText write (as ++ a :: bs) ++ ([')'] ++ rest)) := by
  induction as with
  | nil => exact endsWithin_stalling bs hopen ha rest
  | cons b as ih =>
      obtain ⟨hopen', hopens⟩ := List.forall_mem_cons.mp hopens
      obtain ⟨hb, has⟩ := List.forall_mem_cons.mp has
      obtain ⟨taken, gap, left, heq, hgap, hblank, hleft, hrepeats⟩ := ih hopens has
      have hround := takes_further hopen' (hb _ (closed_further write (as ++ a :: bs) rest))
      rw [heq] at hround
      refine ⟨[] ++ ([','] ++ ([' '] ++ write b) ++ taken), gap, left, ?_, hgap, hblank, hleft,
        .round [] _ (between_blank isBlank_nil (avoids_cons (by decide) _)) (List.cons_ne_nil _ _)
          hround hrepeats fun _ _ _ _ => trivial⟩
      simp only [List.nil_append, List.append_assoc, ← heq]
      simp only [furtherText, List.cons_append, List.flatMap_cons, List.append_assoc]

/-- After an argument that stalls a list does not go on. -/
theorem refuses_further (htext : Unclosed text) :
    Refuses (loosely (.seq furtherPattern.star (.text [')']))) text := by
  have hnone : Takes (loosely furtherPattern.star) [] ([] ++ text) Leafless :=
    takes_star_none (refuses_seq_left (refuses_text (htext.not_prefix (by decide))))
  exact refuses_seq_right [] hnone (between_blank isBlank_nil htext.avoids)
    (refuses_text (htext.not_prefix (by decide)))

/-- A list is refused if one of its arguments stalls. -/
theorem refuses_arguments (as bs : List α) {a : α} (hopens : ∀ b ∈ as, Value.Opens (write b))
    (has : ∀ b ∈ as, TakesArgument (write b) (reads b)) (hopen : Value.Opens (write a))
    (ha : StallsArgument (write a)) (rest : List Char) :
    Refuses (grammar.call .loose .argumentList)
      (Expression.writeArguments ((as ++ a :: bs).map write) ++ rest) := by
  refine refuses_call_of_body grammar_grounded ?_
  -- The first argument of a list has no comma before it.
  cases as with
  | nil =>
      rw [List.nil_append, writeArguments_cons]
      simp only [List.append_assoc]
      exact refuses_seq_right [] (takes_text ['(']) (between_blank isBlank_nil (hopen.avoids _))
        (refuses_closing (ha _ (closed_further write bs rest)) fun _ => refuses_further)
  | cons b as =>
      obtain ⟨hopen', hopens⟩ := List.forall_mem_cons.mp hopens
      obtain ⟨hb, has⟩ := List.forall_mem_cons.mp has
      have hclosed := closed_further write (as ++ a :: bs) rest
      obtain ⟨taken, gap, left, heq, hgap, hblank, hleft, hrepeats⟩ :=
        endsWithin_append as bs hopens has hopen ha rest
      have hstar := takes_star_of_repeats
        (between_blank isBlank_nil (heq ▸ hclosed.closes.avoids)) hrepeats
      have hothers : Refuses (loosely (.seq furtherPattern.star (.text [')']))) (taken ++ (gap ++ left)) :=
        refuses_seq_right gap hstar (between_blank hgap hblank) (refuses_text hleft)
      rw [← heq] at hothers
      have hinner : Refuses (loosely (.seq (.rule .expression)
          (.seq furtherPattern.star (.text [')'])))) _ :=
        refuses_seq_right [] (takes_call (hb _ hclosed)) (between_blank isBlank_nil hclosed.closes.avoids)
          hothers
      rw [List.cons_append, writeArguments_cons]
      simp only [List.append_assoc, List.nil_append] at hinner ⊢
      exact refuses_seq_right [] (takes_text ['(']) (between_blank isBlank_nil (hopen'.avoids _)) hinner

end Arguments

/-! ## Operands -/

/-- What begins like a subject is an operand of the form that begins with one. -/
theorem takes_postfixOperand (hbegins : Begins primaryHeads (text ++ rest)) {nodes : List Tree → Prop}
    (hbody : Takes (loosely (.seq (.rule .primary) (.optional (.rule .postfixOperation)))) text rest
      nodes) :
    Takes (grammar.call .loose .operand) text rest (IsNode .postfixOperand text nodes) := by
  have hothers : ∀ r ∈ operandRules.takeWhile (· != .postfixOperand),
      r ∈ [Rule.negation, .existence, .concatenation] := by
    decide
  exact takes_alternative operandRules rfl rfl (by decide)
    (fun r hr => refuses_other_operand hbegins (hothers r hr))
    (takes_normal .postfixOperand rfl rfl hbody)

/-- A subject alone, where no operation follows. -/
theorem takes_subject (hbegins : Begins primaryHeads text) (hfollows : Follows gap rest)
    (hoperation : Refuses (grammar.call .loose .postfixOperation) rest)
    (htakes : TakesTrailing (grammar.call .loose .primary) text gap rest (IsOne good)) :
    TakesTrailing (grammar.call .loose .operand) text gap rest
      (IsOne fun tree => ∃ text place subject, tree = .mk .postfixOperand text place [subject] ∧
        good subject) := by
  have hprimary : TakesTrailing (loosely (.rule .primary)) text gap rest (IsOne good) := htakes
  have hbody := takesTrailing_seq_empty hprimary hfollows.between
    (takes_optional_none (refuses_call hoperation))
  refine hbody.lift fun text' rest' heq htakes => ?_
  refine (takes_postfixOperand (heq ▸ hbegins.append _) htakes).imp ?_
  rintro nodes ⟨place, children, rfl, subject, rfl, hsubject⟩
  exact ⟨_, rfl, _, _, subject, rfl, hsubject⟩

/-- A subject with an operation after it. -/
theorem takes_operated (hbegins : Begins primaryHeads text) {nodes : List Tree → Prop}
    (htakes : TakesTrailing (grammar.call .loose .primary) text [' '] (right ++ (gap ++ rest))
      (IsOne good))
    (hnext : Avoids grammar.blank (right ++ (gap ++ rest)))
    (hoperation : TakesTrailing (grammar.call .loose .postfixOperation) right gap rest nodes) :
    TakesTrailing (grammar.call .loose .operand) (text ++ ([' '] ++ right)) gap rest
      (IsOne fun tree => ∃ text place subject parts,
        tree = .mk .postfixOperand text place (subject :: parts) ∧ good subject ∧ nodes parts) := by
  have hprimary : TakesTrailing (loosely (.rule .primary)) text [' '] (right ++ (gap ++ rest))
      (IsOne good) := htakes
  have hoptional : TakesTrailing (loosely (.optional (.rule .postfixOperation))) right gap rest nodes :=
    hoperation.lift fun _ _ _ htakes => takes_optional_some (takes_call htakes)
  have hbody := takesTrailing_seq hprimary (between_blank isBlank_space hnext) hoptional then_intro
  refine hbody.lift fun text' rest' heq htakes => ?_
  have hwhole : Begins primaryHeads (text' ++ rest') := by
    rw [heq, List.append_assoc]
    exact hbegins.append _
  refine (takes_postfixOperand hwhole htakes).imp ?_
  rintro nodes ⟨place, children, rfl, _, parts, rfl, ⟨subject, rfl, hsubject⟩, hparts⟩
  exact ⟨_, rfl, _, _, subject, parts, rfl, hsubject, hparts⟩

/-- What no form of operands begins with is no operand. -/
theorem refuses_operandForms (htext : text ≠ [])
    (hrefuses : ∀ r ∈ operandRules, Refuses (grammar.call .loose r) text) :
    Refuses (grammar.call .loose .operand) text := by
  have hforms : ∀ q ∈ operandRules.map Pattern.rule, Refuses (loosely q) text := by
    intro q hq
    obtain ⟨r, hr, rfl⟩ := List.mem_map.mp hq
    exact refuses_call (hrefuses r hr)
  cases text with
  | nil => exact absurd rfl htext
  | cons c text => exact refuses_call_of_body grammar_grounded (refuses_firstOf hforms)

theorem Begins.ne_nil (hbegins : Begins primaryHeads text) : text ≠ [] := by
  have hall : ∀ head ∈ primaryHeads, head ≠ [] := by
    decide
  obtain ⟨head, hhead, tail, rfl⟩ := hbegins
  exact List.append_ne_nil_of_left_ne_nil (hall head hhead) tail

/-- Without its subject an operand is refused. -/
theorem refuses_operand (hbegins : Begins primaryHeads text)
    (hprimary : Refuses (grammar.call .loose .primary) text) :
    Refuses (grammar.call .loose .operand) text := by
  have hall : ∀ r ∈ operandRules, r ∈ [Rule.negation, .existence, .concatenation] ∨
      r = .postfixOperand := by
    decide
  refine refuses_operandForms hbegins.ne_nil fun r hr => ?_
  rcases hall r hr with hr | rfl
  · exact refuses_other_operand hbegins hr
  · exact refuses_call_of_body grammar_grounded (refuses_seq_left (refuses_call hprimary))

/-- The name of a concatenation, before a parenthesis. -/
theorem takes_concatKeyword (text : List Char) :
    Takes (loosely (.rule .concatKeyword)) "concat".toList ([] ++ (['('] ++ text))
      (IsNode .concatKeyword "concat".toList fun _ => True) := by
  have htook : grammar.onPrefix prefixDepth .loose .concatKeyword ("concat".toList ++ ['(']) =
      .took ['('] := by
    decide
  have htakes := takes_of_prefix grammar_grounded htook text
  exact htakes.isNode grammar_grounded (by decide)

/-- What the name of a concatenation is not. -/
theorem refuses_concatText {rule : Rule}
    (hrule : rule ∈ [Rule.negation, .existence, .postfixOperand, .primary]) (text : List Char) :
    Refuses (grammar.call .loose rule) ("concat".toList ++ (['('] ++ text)) := by
  have hall : ∀ rule ∈ [Rule.negation, .existence, .postfixOperand, .primary],
      grammar.onPrefix prefixDepth .loose rule ("concat".toList ++ ['(']) = .refused := by
    decide +kernel
  rw [← List.append_assoc]
  exact refuses_of_prefix grammar_grounded (hall rule hrule) text

/-- Arguments after the name of a concatenation. -/
theorem takes_concatenation
    (hlist : Takes (grammar.call .loose .argumentList) (['('] ++ text) rest (IsOne good)) :
    Takes (grammar.call .loose .operand) ("concat".toList ++ (['('] ++ text)) rest
      (IsOne fun tree => ∃ text place keyword list,
        tree = .mk .concatenation text place [keyword, list] ∧ good list) := by
  have hbetween : Between grammar.blank ⟨.loose, true⟩ [] ((['('] ++ text) ++ rest) :=
    between_blank isBlank_nil (avoids_cons (by decide) _)
  have hlist : Takes (loosely (.rule .argumentList)) (['('] ++ text) rest (IsOne good) := hlist
  have hword := takes_concatKeyword (text ++ rest)
  rw [← List.append_assoc ['(']] at hword
  have hbody := takes_seq [] hword hbetween hlist then_intro
  have hothers : ∀ r ∈ operandRules.takeWhile (· != .concatenation),
      r ∈ [Rule.negation, .existence, .postfixOperand, .primary] := by
    decide
  refine takes_alternative operandRules rfl rfl (by decide) (fun r hr => ?_)
    ((takes_normal .concatenation rfl rfl hbody).imp ?_)
  · simp only [List.append_assoc]
    exact refuses_concatText (hothers r hr) (text ++ rest)
  · rintro nodes ⟨place, children, rfl, _, _, rfl, ⟨place', children', rfl, _⟩, list, rfl, hlist⟩
    exact ⟨_, rfl, _, _, _, list, rfl, hlist⟩

theorem refuses_concatenation
    (hlist : Refuses (grammar.call .loose .argumentList) (['('] ++ text)) :
    Refuses (grammar.call .loose .operand) ("concat".toList ++ (['('] ++ text)) := by
  have hall : ∀ r ∈ operandRules, r ∈ [Rule.negation, .existence, .postfixOperand, .primary] ∨
      r = .concatenation := by
    decide
  refine refuses_operandForms (List.cons_ne_nil _ _) fun r hr => ?_
  rcases hall r hr with hr | rfl
  · exact refuses_concatText hr text
  · exact refuses_call_of_body grammar_grounded (refuses_seq_right [] (takes_concatKeyword text)
      (between_blank isBlank_nil (avoids_cons (by decide) _)) (refuses_call hlist))

/-! ## Whole texts -/

/-- What is refused is refused at the start of a text as well. -/
theorem refuses_seq_start {p : Pattern Rule} (htext : Avoids grammar.blank text)
    (hp : Refuses (loosely p) text) : Refuses (loosely (.seq .start p)) text := by
  intro place attempts
  -- Elsewhere it is the start that is refused.
  by_cases hplace : place.offset = 0
  · obtain ⟨attempts', hrun⟩ := hp place attempts
    have hstart : (Pattern.start : Pattern Rule).run grammar.blank ⟨.loose, true⟩ (grammar.call .loose)
        ⟨place, text⟩ attempts = (.matched ⟨place, text⟩ [], attempts) := by
      rw [Pattern.run, if_pos hplace]
    have hskip : Context.skip ⟨.loose, true⟩ grammar.blank ⟨place, text⟩ = ⟨place, text⟩ :=
      skip_between (between_blank isBlank_nil htext) place
    refine ⟨attempts', ?_⟩
    unfold loosely at hrun ⊢
    rw [Pattern.run, hstart]
    simp only [Run.andThen, hskip, hrun]
  · have hstart : (Pattern.start : Pattern Rule).run grammar.blank ⟨.loose, true⟩ (grammar.call .loose)
        ⟨place, text⟩ attempts = (.failed, attempts) := by
      rw [Pattern.run, if_neg hplace]
    refine ⟨attempts, ?_⟩
    unfold loosely
    rw [Pattern.run, hstart]
    rfl

/-- An expression that stalls is no whole text. -/
theorem error_of_stalls (hopens : Avoids grammar.blank text)
    (hstalls : Stalls Unclosed (grammar.call .loose .expression) text) :
    ∃ error, Tree.parse .expressionRoot text = .error error := by
  have hend : ∀ after, Unclosed after → Refuses (loosely (.rule .endOfInput)) after := by
    rintro after ⟨c, tail, rfl, _, _⟩
    exact refuses_call (refuses_call_of_body grammar_grounded (refuses_stop c tail))
  have hroot : Refuses (grammar.call .loose .expressionRoot) text :=
    refuses_call_of_body grammar_grounded (refuses_seq_start hopens (refuses_closing hstalls hend))
  obtain ⟨attempts, hrun⟩ := hroot Place.first .none
  have hparse : grammar.parse .expressionRoot text = (.failed, attempts) := hrun
  unfold Tree.parse
  rw [hparse]
  exact ⟨_, rfl⟩

end DocQuery.Language
