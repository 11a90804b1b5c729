import DocQuery.Expression.Reader
import DocQuery.Proofs.Grammar.Prefixes
import DocQuery.Proofs.Grammar.Trailing
import DocQuery.Proofs.Language.Shape
import DocQuery.Proofs.Language.Words

/-!
# What stands around operands

The parts of an expression are told apart by a few known characters: by the operators and keywords
between blanks, and by the beginnings of what an operand can be. All of this is found by evaluation;
what comes after the known characters does not matter.

Main names:

* `worded`, `takes_worded`, `refuses_worded` — keywords with something after them;
* `operationOrder`, `takes_operation`, `refuses_operation` — the operations after a subject;
* `takes_binaryOperator` — operators;
* `Follows`, `Closes` — what may follow a part of an operand, and a whole one;
* `Begins`, `literalHeads`, `primaryHeads` — the beginnings of literals and of subjects.
-/

namespace DocQuery.Language

open Grammar

variable {gap rest text : List Char}

/-- How deep rules are followed for a verdict on a known beginning. -/
abbrev prefixDepth : Nat := 8

/-- A pattern where blanks may stand between its parts. -/
abbrev loosely (p : Pattern Rule) : Runner Rule :=
  p.run grammar.blank ⟨.loose, true⟩ (grammar.call .loose)

theorem isBlank_space : IsBlank [' '] := by
  decide

theorem avoids_append {words : List Char}
    (hwords : (words.head?.any fun c => !grammar.blank.contains c) = true) (rest : List Char) :
    Avoids grammar.blank (words ++ rest) := by
  cases words with
  | nil => cases hwords
  | cons c words => exact avoids_cons (by simpa using hwords) _

/-- A rule of several alternatives takes what one of them takes, if those before it refuse. -/
theorem takes_alternative (rules : List Rule) {outer rule : Rule} (hmode : grammar.mode outer = .silent)
    (hbody : grammar.body outer = .firstOf (rules.map .rule)) (hrule : rule ∈ rules)
    {good : List Tree → Prop}
    (hbefore : ∀ r ∈ rules.takeWhile (· != rule), Refuses (grammar.call .loose r) (text ++ rest))
    (htakes : Takes (grammar.call .loose rule) text rest good) :
    Takes (grammar.call .loose outer) text rest good := by
  refine takes_call_silent grammar_grounded hmode ?_
  unfold Grammar.callBody
  rw [hmode, hbody]
  exact takes_firstOf_rules hrule hbefore htakes

/-! ## Keywords -/

/-- The keywords that stand before a blank. -/
def keywordRules : List Rule :=
  [.notKeyword, .existsKeyword, .isKeyword, .asKeyword, .inKeyword, .betweenKeyword,
    .matchesKeyword, .startsKeyword, .endsKeyword, .withKeyword, .containsKeyword, .hasKeyword,
    .annotationKeyword]

/-- The text of a keyword. -/
def keywordText : Rule → List Char
  | .notKeyword => "not".toList
  | .existsKeyword => "exists".toList
  | .isKeyword => "is".toList
  | .asKeyword => "as".toList
  | .inKeyword => "in".toList
  | .betweenKeyword => "between".toList
  | .matchesKeyword => "matches".toList
  | .startsKeyword => "starts".toList
  | .endsKeyword => "ends".toList
  | .withKeyword => "with".toList
  | .containsKeyword => "contains".toList
  | .hasKeyword => "has".toList
  | .annotationKeyword => "annotation".toList
  | _ => []

/-- A text after keywords. -/
def worded : List Rule → List Char → List Char
  | [], text => text
  | keyword :: keywords, text => keywordText keyword ++ ([' '] ++ worded keywords text)

theorem worded_append (keywords : List Rule) (text rest : List Char) :
    worded keywords text ++ rest = worded keywords (text ++ rest) := by
  induction keywords with
  | nil => rfl
  | cons keyword keywords ih => simp only [worded, List.append_assoc, ih]

theorem worded_eq (keywords : List Rule) (text : List Char) :
    worded keywords text = worded keywords [] ++ text := by
  rw [worded_append, List.nil_append]

/-- A pattern after keywords. -/
abbrev afterKeywords (keywords : List Rule) (p : Pattern Rule) : Pattern Rule :=
  .inOrder (keywords.map .rule ++ [p])

theorem afterKeywords_cons (keyword : Rule) (keywords : List Rule) (p : Pattern Rule) :
    afterKeywords (keyword :: keywords) p = .seq (.rule keyword) (afterKeywords keywords p) := by
  cases keywords <;> rfl

theorem takes_keyword {keyword : Rule} (hkeyword : keyword ∈ keywordRules) (rest : List Char) :
    Takes (grammar.call .loose keyword) (keywordText keyword) ([' '] ++ rest)
      (IsOne fun tree => tree.rule = keyword) := by
  have hall : ∀ keyword ∈ keywordRules, (grammar.mode keyword).LeavesNode .loose ∧
      grammar.onPrefix prefixDepth .loose keyword (keywordText keyword ++ [' ']) = .took [' '] := by
    decide
  obtain ⟨hleaves, htook⟩ := hall keyword hkeyword
  have htakes := takes_of_prefix grammar_grounded htook rest
  refine (htakes.isNode grammar_grounded hleaves).imp ?_
  rintro nodes ⟨place, children, rfl, _⟩
  exact ⟨_, rfl, rfl⟩

theorem avoids_worded {keywords : List Rule} (hkeywords : ∀ k ∈ keywords, k ∈ keywordRules)
    (htext : Avoids grammar.blank text) : Avoids grammar.blank (worded keywords text) := by
  have hall : ∀ keyword ∈ keywordRules,
      ((keywordText keyword).head?.any fun c => !grammar.blank.contains c) = true := by
    decide
  cases keywords with
  | nil => exact htext
  | cons keyword keywords => exact avoids_append (hall keyword (hkeywords _ (by simp))) _

/-- Keywords, and then what a pattern takes. -/
theorem takes_worded {keywords : List Rule} (hkeywords : ∀ k ∈ keywords, k ∈ keywordRules)
    {p : Pattern Rule} {good : List Tree → Prop} (htext : Avoids grammar.blank (text ++ (gap ++ rest)))
    (hp : TakesTrailing (loosely p) text gap rest good) :
    TakesTrailing (loosely (afterKeywords keywords p)) (worded keywords text) gap rest fun nodes =>
      ∃ words parts, nodes = words ++ parts ∧ words.map Node.rule = keywords ∧ good parts := by
  induction keywords with
  | nil => exact hp.imp fun nodes hnodes => ⟨[], nodes, rfl, rfl, hnodes⟩
  | cons keyword keywords ih =>
      obtain ⟨hkeyword, hkeywords⟩ := List.forall_mem_cons.mp hkeywords
      have hnext : Avoids grammar.blank (worded keywords text ++ (gap ++ rest)) := by
        rw [worded_append]
        exact avoids_worded hkeywords htext
      rw [afterKeywords_cons]
      refine takesTrailing_seq (Takes.trailing (takes_call (takes_keyword hkeyword _)))
        (between_blank isBlank_space hnext) (ih hkeywords) ?_
      rintro nodes nodes' ⟨word, rfl, hword⟩ ⟨words, parts, rfl, hwords, hparts⟩
      exact ⟨word :: words, parts, rfl, by rw [List.map_cons, hword, hwords], hparts⟩

/-- Keywords before what a pattern refuses. -/
theorem refuses_worded {keywords : List Rule} (hkeywords : ∀ k ∈ keywords, k ∈ keywordRules)
    {p : Pattern Rule} (htext : Avoids grammar.blank text) (hp : Refuses (loosely p) text) :
    Refuses (loosely (afterKeywords keywords p)) (worded keywords text) := by
  induction keywords with
  | nil => exact hp
  | cons keyword keywords ih =>
      obtain ⟨hkeyword, hkeywords⟩ := List.forall_mem_cons.mp hkeywords
      rw [afterKeywords_cons]
      exact refuses_seq_right [' '] (takes_call (takes_keyword hkeyword _))
        (between_blank isBlank_space (avoids_worded hkeywords htext)) (ih hkeywords)

/-! ## Operations after a subject -/

/-- The operations after a subject, in the order in which they are tried. -/
def operationOrder : List Rule :=
  [.negatedTypeCheck, .typeCheck, .inOperation, .notInOperation, .betweenOperation,
    .notBetweenOperation, .matchesOperation, .startsWithOperation, .endsWithOperation,
    .containsOperation, .hasAnnotationOperation]

/-- The keywords of an operation. -/
def operationKeywords : Rule → List Rule
  | .negatedTypeCheck => [.isKeyword, .notKeyword]
  | .typeCheck => [.isKeyword]
  | .inOperation => [.inKeyword]
  | .notInOperation => [.notKeyword, .inKeyword]
  | .betweenOperation => [.betweenKeyword]
  | .notBetweenOperation => [.notKeyword, .betweenKeyword]
  | .matchesOperation => [.matchesKeyword]
  | .startsWithOperation => [.startsKeyword, .withKeyword]
  | .endsWithOperation => [.endsKeyword, .withKeyword]
  | .containsOperation => [.containsKeyword]
  | .hasAnnotationOperation => [.hasKeyword, .annotationKeyword]
  | _ => []

/-- What stands after the keywords of an operation. -/
def operationPart : Rule → Rule
  | .negatedTypeCheck | .typeCheck => .typeName
  | .inOperation | .notInOperation | .betweenOperation | .notBetweenOperation => .argumentList
  | _ => .primary

theorem mem_keywordRules {rule : Rule} (hrule : rule ∈ operationOrder) :
    ∀ k ∈ operationKeywords rule, k ∈ keywordRules := by
  have hall : ∀ rule ∈ operationOrder, ∀ k ∈ operationKeywords rule, k ∈ keywordRules := by
    decide
  exact hall rule hrule

theorem body_operation {rule : Rule} (hrule : rule ∈ operationOrder) :
    grammar.body rule = afterKeywords (operationKeywords rule) (.rule (operationPart rule)) ∧
      grammar.mode rule = .normal := by
  simp only [operationOrder, List.mem_cons, List.not_mem_nil, or_false] at hrule
  rcases hrule with rfl | rfl | rfl | rfl | rfl | rfl | rfl | rfl | rfl | rfl | rfl <;>
    exact ⟨rfl, rfl⟩

/-- The tree of an operation: its keywords and its part. -/
def IsOperation (rule : Rule) (good : List Tree → Prop) (nodes : List Tree) : Prop :=
  ∃ text place words parts, nodes = [.mk rule text place (words ++ parts)] ∧
    words.length = (operationKeywords rule).length ∧ good parts

/-- An operation whose part is taken, if the operations before it refuse the text. -/
theorem takes_operation {rule : Rule} (hrule : rule ∈ operationOrder) {good : List Tree → Prop}
    (htext : Avoids grammar.blank (text ++ (gap ++ rest)))
    (hbefore : ∀ r ∈ operationOrder.takeWhile (· != rule),
      Refuses (grammar.call .loose r) (worded (operationKeywords rule) (text ++ (gap ++ rest))))
    (hpart : TakesTrailing (grammar.call .loose (operationPart rule)) text gap rest good) :
    TakesTrailing (grammar.call .loose .postfixOperation) (worded (operationKeywords rule) text) gap
      rest (IsOperation rule good) := by
  obtain ⟨hbody, hmode⟩ := body_operation hrule
  have htaken : TakesTrailing (grammar.callBody .loose rule) (worded (operationKeywords rule) text)
      gap rest fun nodes => ∃ words parts, nodes = words ++ parts ∧
        words.map Node.rule = operationKeywords rule ∧ good parts := by
    unfold Grammar.callBody
    rw [hmode, hbody]
    exact takes_worded (mem_keywordRules hrule) htext hpart
  have hnode := TakesTrailing.node grammar_grounded (by rw [hmode]; decide) htaken
  refine hnode.lift fun text' rest' heq htakes => ?_
  refine takes_alternative operationOrder rfl rfl hrule (fun r hr => ?_) (htakes.imp ?_)
  · rw [heq, worded_append]
    exact hbefore r hr
  · rintro nodes ⟨text'', place, children, rfl, words, parts, rfl, hwords, hparts⟩
    exact ⟨text'', place, words, parts, rfl, by rw [← hwords, List.length_map], hparts⟩

/-- The words of an operation with an argument are those of no other one. -/
theorem refuses_other {rule : Rule} (hrule : rule ∈ operationOrder)
    (hargument : operationPart rule ≠ .typeName) {r : Rule} (hr : r ∈ operationOrder)
    (hne : r ≠ rule) (text : List Char) :
    Refuses (grammar.call .loose r) (worded (operationKeywords rule) text) := by
  have hall : ∀ rule ∈ operationOrder, operationPart rule ≠ .typeName → ∀ r ∈ operationOrder,
      r ≠ rule →
        grammar.onPrefix prefixDepth .loose r (worded (operationKeywords rule) []) = .refused := by
    decide +kernel
  rw [worded_eq]
  exact refuses_of_prefix grammar_grounded (hall rule hrule hargument r hr hne) text

theorem refuses_operation {rule : Rule} (hrule : rule ∈ operationOrder)
    (hargument : operationPart rule ≠ .typeName) (htext : Avoids grammar.blank text)
    (hpart : Refuses (grammar.call .loose (operationPart rule)) text) :
    Refuses (grammar.call .loose .postfixOperation) (worded (operationKeywords rule) text) := by
  obtain ⟨hbody, hmode⟩ := body_operation hrule
  have hsame : Refuses (grammar.call .loose rule) (worded (operationKeywords rule) text) := by
    refine refuses_call_of_body grammar_grounded ?_
    unfold Grammar.callBody
    rw [hmode, hbody]
    exact refuses_worded (mem_keywordRules hrule) htext (refuses_call hpart)
  have hrefuses : ∀ q ∈ operationOrder.map Pattern.rule, Refuses (loosely q)
      (worded (operationKeywords rule) text) := by
    intro q hq
    obtain ⟨r, hr, rfl⟩ := List.mem_map.mp hq
    by_cases hne : r = rule
    · subst hne
      exact refuses_call hsame
    · exact refuses_call (refuses_other hrule hargument hr hne text)
  have hsome : ∀ rule ∈ operationOrder, worded (operationKeywords rule) [] ≠ [] := by
    decide
  rw [worded_eq] at hrefuses ⊢
  cases hwords : worded (operationKeywords rule) [] with
  | nil => exact absurd hwords (hsome rule hrule)
  | cons c words =>
      rw [hwords] at hrefuses
      exact refuses_call_of_body grammar_grounded (refuses_firstOf hrefuses)

/-! ## Operators -/

/-- The rule of an operator. -/
def operatorRule : BinaryOperator → Rule
  | .arithmetic .power => .power
  | .arithmetic .multiply => .multiply
  | .arithmetic .divide => .divide
  | .arithmetic .modulus => .modulus
  | .arithmetic .add => .add
  | .arithmetic .subtract => .subtract
  | .relational .greaterOrEqual => .greaterOrEqual
  | .relational .lessOrEqual => .lessOrEqual
  | .relational .notEqual => .notEqual
  | .relational .equal => .equal
  | .relational .greaterThan => .greaterThan
  | .relational .lessThan => .lessThan
  | .logical .and => .andOperator
  | .logical .xor => .xorOperator
  | .logical .nor => .norOperator
  | .logical .or => .orOperator

theorem operatorOf?_operatorRule (op : BinaryOperator) :
    Expression.operatorOf? (operatorRule op) = some op := by
  rcases op with op | op | op <;> cases op <;> rfl

theorem mem_operators (op : BinaryOperator) : op ∈ BinaryOperator.all := by
  rcases op with op | op | op <;> cases op <;> decide

/-- An operator between blanks. -/
theorem takes_binaryOperator (op : BinaryOperator) (rest : List Char) :
    Takes (grammar.call .loose .binaryOperator) op.symbol.toList ([' '] ++ rest)
      (IsOne fun tree => tree.rule = operatorRule op) := by
  have hall : ∀ op ∈ BinaryOperator.all, operatorRule op ∈ binaryRules ∧
      (grammar.mode (operatorRule op)).LeavesNode .loose ∧
      grammar.onPrefix prefixDepth .loose (operatorRule op) (op.symbol.toList ++ [' ']) =
        .took [' '] ∧
      ∀ r ∈ binaryRules.takeWhile (· != operatorRule op),
        grammar.onPrefix prefixDepth .loose r (op.symbol.toList ++ [' ']) = .refused := by
    decide +kernel
  obtain ⟨hrule, hleaves, htook, hbefore⟩ := hall op (mem_operators op)
  have htakes := takes_of_prefix grammar_grounded htook rest
  refine takes_alternative binaryRules rfl rfl hrule (fun r hr => ?_)
    ((htakes.isNode grammar_grounded hleaves).imp ?_)
  · rw [← List.append_assoc]
    exact refuses_of_prefix grammar_grounded (hbefore r hr) rest
  · rintro nodes ⟨place, children, rfl, _⟩
    exact ⟨_, rfl, rfl⟩

/-! ## What may follow -/

/-- The words of an operation with an argument come next. -/
def OperationNext (text : List Char) : Prop :=
  ∃ rule ∈ operationOrder, ∃ more, text = worded (operationKeywords rule) more

/-- Blanks and then a text may follow a part of an operand: it is no part of a scalar, of a path or
of a kind. -/
structure Follows (gap rest : List Char) : Prop where
  stops : Stops (gap ++ rest)
  blank : IsBlank gap
  avoids : Avoids grammar.blank rest
  kind : Refuses (grammar.call .loose .asKeyword) rest

/-- They may follow a whole operand: it is no operation either. -/
structure Closes (gap rest : List Char) : Prop extends Follows gap rest where
  operation : Refuses (grammar.call .loose .postfixOperation) rest

theorem Follows.between (hfollows : Follows gap rest) :
    Between grammar.blank ⟨.loose, true⟩ gap rest :=
  between_blank hfollows.blank hfollows.avoids

theorem closes_nil : Closes [] [] :=
  ⟨⟨stops_nil, isBlank_nil, avoids_nil _,
    refuses_call_nil grammar_grounded (by decide : grammar.isSolid 4 .asKeyword = true) .loose⟩,
    refuses_call_nil grammar_grounded (by decide : grammar.isSolid 4 .postfixOperation = true)
      .loose⟩

/-- A comma or a parenthesis closes an operand. -/
theorem closes_cons {c : Char} (hc : c ∈ [',', ')']) (rest : List Char) : Closes [] (c :: rest) := by
  have hall : ∀ c ∈ [',', ')'], c ∈ stopChars ∧ grammar.blank.contains c = false ∧
      ∀ r ∈ [Rule.asKeyword, .postfixOperation],
        grammar.onPrefix prefixDepth .loose r [c] = .refused := by
    decide
  obtain ⟨hstop, hblank, hrefused⟩ := hall c hc
  have hrefuses : ∀ r ∈ [Rule.asKeyword, .postfixOperation],
      Refuses (grammar.call .loose r) (c :: rest) := fun r hr =>
    refuses_of_prefix grammar_grounded (hrefused r hr) rest
  exact ⟨⟨stops_cons hstop rest, isBlank_nil, avoids_cons hblank rest, hrefuses _ (by decide)⟩,
    hrefuses _ (by decide)⟩

/-- An operator closes an operand. -/
theorem closes_operator (op : BinaryOperator) (rest : List Char) :
    Closes [' '] (op.symbol.toList ++ ([' '] ++ rest)) := by
  have hall : ∀ op ∈ BinaryOperator.all,
      (op.symbol.toList.head?.any fun c => !grammar.blank.contains c) = true ∧
      ∀ r ∈ [Rule.asKeyword, .postfixOperation],
        grammar.onPrefix prefixDepth .loose r (op.symbol.toList ++ [' ']) = .refused := by
    decide +kernel
  obtain ⟨hhead, hrefused⟩ := hall op (mem_operators op)
  have hrefuses : ∀ r ∈ [Rule.asKeyword, .postfixOperation],
      Refuses (grammar.call .loose r) (op.symbol.toList ++ ([' '] ++ rest)) := by
    intro r hr
    rw [← List.append_assoc]
    exact refuses_of_prefix grammar_grounded (hrefused r hr) rest
  exact ⟨⟨stops_cons (by decide) _, isBlank_space, avoids_append hhead _, hrefuses _ (by decide)⟩,
    hrefuses _ (by decide)⟩

/-- The words of an operation follow its subject. -/
theorem OperationNext.follows (htext : OperationNext text) : Follows [' '] text := by
  obtain ⟨rule, hrule, more, rfl⟩ := htext
  have hall : ∀ rule ∈ operationOrder,
      ((worded (operationKeywords rule) []).head?.any fun c => !grammar.blank.contains c) = true ∧
        grammar.onPrefix prefixDepth .loose .asKeyword (worded (operationKeywords rule) []) =
          .refused := by
    decide
  obtain ⟨hhead, hrefused⟩ := hall rule hrule
  rw [worded_eq]
  exact ⟨stops_cons (by decide) _, isBlank_space, avoids_append hhead _,
    refuses_of_prefix grammar_grounded hrefused more⟩

/-! ## The words of an operation are nothing else -/

/-- What the words of an operation cannot be read as. -/
theorem OperationNext.refuses (htext : OperationNext text) {rule : Rule}
    (hrule : rule ∈ [Rule.binaryOperator, .endOfInput]) : Refuses (grammar.call .loose rule) text := by
  obtain ⟨operation, hoperation, more, rfl⟩ := htext
  have hall : ∀ operation ∈ operationOrder, ∀ rule ∈ [Rule.binaryOperator, .endOfInput],
      grammar.onPrefix prefixDepth .loose rule (worded (operationKeywords operation) []) =
        .refused := by
    decide +kernel
  rw [worded_eq]
  exact refuses_of_prefix grammar_grounded (hall operation hoperation rule hrule) more

/-! ## Beginnings -/

/-- A text begins with one of several texts. -/
def Begins (heads : List (List Char)) (text : List Char) : Prop :=
  ∃ head ∈ heads, ∃ tail, text = head ++ tail

section Begins

variable {heads heads' : List (List Char)}

theorem begins_append {head : List Char} (hhead : head ∈ heads) (tail : List Char) :
    Begins heads (head ++ tail) :=
  ⟨head, hhead, tail, rfl⟩

theorem Begins.append (htext : Begins heads text) (rest : List Char) :
    Begins heads (text ++ rest) := by
  obtain ⟨head, hhead, tail, rfl⟩ := htext
  exact ⟨head, hhead, tail ++ rest, List.append_assoc ..⟩

theorem Begins.mono (htext : Begins heads text) (hheads : ∀ head ∈ heads, head ∈ heads') :
    Begins heads' text := by
  obtain ⟨head, hhead, tail, rfl⟩ := htext
  exact ⟨head, hheads head hhead, tail, rfl⟩

/-- Rules that refuse all of the beginnings refuse the text. -/
theorem Begins.refuses (htext : Begins heads text) (rules : List Rule)
    (hall : ∀ head ∈ heads, ∀ rule ∈ rules,
      grammar.onPrefix prefixDepth .loose rule head = .refused) {rule : Rule} (hrule : rule ∈ rules) :
    Refuses (grammar.call .loose rule) text := by
  obtain ⟨head, hhead, tail, rfl⟩ := htext
  exact refuses_of_prefix grammar_grounded (hall head hhead rule hrule) tail

end Begins

/-- The beginnings of literals. -/
def literalHeads : List (List Char) :=
  ["null".toList, "t".toList, "f".toList, "P".toList, "-".toList, "\"".toList] ++
    digitChars.map fun c => [c]

/-- The beginnings of infinite numbers and of no number, which are no literals. -/
def oddHeads : List (List Char) :=
  ["+".toList, "-i".toList, "na".toList]

/-- The beginnings of what can be a subject. -/
def primaryHeads : List (List Char) :=
  ["(".toList, "/".toList, "@".toList, "#".toList, "now".toList] ++ literalHeads ++ oddHeads

/-- What begins like a subject is no operand of another form. -/
theorem refuses_other_operand (htext : Begins primaryHeads text) {rule : Rule}
    (hrule : rule ∈ [Rule.negation, .existence, .concatenation]) :
    Refuses (grammar.call .loose rule) text := by
  have hall : ∀ head ∈ primaryHeads, ∀ rule ∈ [Rule.negation, .existence, .concatenation],
      grammar.onPrefix prefixDepth .loose rule head = .refused := by
    decide +kernel
  exact htext.refuses _ hall hrule

theorem avoids_primary (htext : Begins primaryHeads text) : Avoids grammar.blank text := by
  obtain ⟨head, hhead, tail, rfl⟩ := htext
  have hall : ∀ head ∈ primaryHeads,
      (head.head?.any fun c => !grammar.blank.contains c) = true := by
    decide
  exact avoids_append (hall head hhead) tail

end DocQuery.Language
