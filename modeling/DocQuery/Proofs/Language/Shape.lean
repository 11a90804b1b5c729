import DocQuery.Proofs.Grammar.Children
import DocQuery.Language.Tree

/-!
# The shape of syntax trees

The grammar is grounded, and every node of a tree has the children that its rule provides for. The
readers take trees apart by the places and the rules of children; this module says what they
find there.

Main names:

* `grammar_grounded` — rules do not nest without taking characters;
* `node_of_parse`, `error_of_parse` — what it means that a text has a tree, or has none;
* `IsRoot`, `IsRoot.parse_of_takes` — the rules for whole texts;
* `operandRules`, `primaryRules`, … — the rules of parts that have several alternatives;
* `negation_children`, `path_children`, … — the children of the nodes of a rule.
-/

namespace DocQuery.Language

open Grammar

/-- Rules nest less than ten deep before they take a character. -/
theorem grammar_grounded : grammar.Grounded := by
  refine ⟨6, fun rule => ?_⟩
  cases rule <;> decide +kernel

/-- The tree of a text is what its rule has left first. -/
theorem matches_of_parse {rule : Rule} {text : List Char} {tree : Tree}
    (hparse : Tree.parse rule text = .ok tree) :
    ∃ taken rest more, text = taken ++ rest ∧
      Matches (grammar.call .loose rule) taken rest (tree :: more) := by
  unfold Tree.parse at hparse
  split at hparse
  · rename_i next tree' more attempts hrun
    cases hparse
    rw [Grammar.parse_eq_call] at hrun
    obtain ⟨taken, hpasses⟩ := call_splits grammar .loose rule _ _ _ _ _ hrun
    exact ⟨taken, next.rest, more, hpasses.rest, hpasses.matches hrun⟩
  · cases hparse
  · cases hparse
  · cases hparse

theorem grown_of_parse {rule : Rule} {text : List Char} {tree : Tree}
    (hparse : Tree.parse rule text = .ok tree) : Grown grammar tree := by
  obtain ⟨taken, rest, more, _, hmatches⟩ := matches_of_parse hparse
  exact grown_of_matches grammar_grounded hmatches (List.mem_cons_self ..)

/-- The tree of a rule that leaves nodes is its node, and covers the beginning of the text. -/
theorem node_of_parse {rule : Rule} (hmode : grammar.mode rule ≠ .silent) {text : List Char}
    {tree : Tree} (hparse : Tree.parse rule text = .ok tree) :
    ∃ rest, text = tree.text ++ rest ∧ tree.rule = rule ∧
      Matches (grammar.call .loose rule) tree.text rest [tree] := by
  obtain ⟨taken, rest, more, htext, hmatches⟩ := matches_of_parse hparse
  obtain ⟨place, children, hnodes, _⟩ :=
    matches_node grammar_grounded ⟨hmode, Or.inl (by decide)⟩ hmatches
  rw [List.cons.injEq] at hnodes
  obtain ⟨rfl, rfl⟩ := hnodes
  exact ⟨rest, htext, rfl, hmatches⟩

/-- A text that a rule with nodes does not match is refused at a place: the grammar never falls
short. -/
theorem error_of_parse {rule : Rule} (hmode : grammar.mode rule ≠ .silent) {text : List Char}
    {error : SyntaxError} (hparse : Tree.parse rule text = .error error) :
    ∃ place expected, error = .unexpected rule place expected := by
  have hends := grammar_grounded.call_ends .loose rule (.ofText text) .none
  rw [← Grammar.parse_eq_call] at hends
  unfold Tree.parse at hparse
  split at hparse
  · cases hparse
  · rename_i next attempts hrun
    rw [Grammar.parse_eq_call] at hrun
    obtain ⟨taken, hpasses⟩ := call_splits grammar .loose rule _ _ _ _ _ hrun
    obtain ⟨place, children, hnodes, _⟩ := matches_node grammar_grounded
      ⟨hmode, Or.inl (by decide)⟩ (hpasses.matches hrun)
    cases hnodes
  · cases hparse
    exact ⟨_, _, rfl⟩
  · rename_i hrun
    rw [hrun] at hends
    exact absurd rfl hends

/-! ## Whole texts -/

/-- A rule for whole texts of what another rule matches. -/
structure IsRoot (root rule : Rule) : Prop where
  normal : grammar.mode root = .normal
  body : grammar.body root = .seq .start (.seq (.rule rule) (.rule .endOfInput))
  leaves : (grammar.mode rule).LeavesNode .loose
  other : rule ≠ .endOfInput

theorem isRoot_path : IsRoot .pathRoot .path :=
  ⟨rfl, rfl, by decide, by decide⟩

theorem isRoot_expression : IsRoot .expressionRoot .expression :=
  ⟨rfl, rfl, by decide, by decide⟩

theorem childrenOf_root {root rule : Rule} (hother : rule ≠ .endOfInput) {part stop : Tree}
    (hpart : part.rule = rule) (hstop : stop.rule = .endOfInput) (text : List Char) (place : Place) :
    Node.childrenOf rule (.mk root text place [part, stop]) = [part] := by
  simp [Node.childrenOf, Node.children, hpart, hstop, hother.symm]

/-- A rule for whole texts reads a text of which the rule for its part takes all. -/
theorem parse_of_takes {root : Rule} {p : Pattern Rule} (hmode : grammar.mode root = .normal)
    (hbody : grammar.body root = .seq .start (.seq p (.rule .endOfInput))) {text : List Char}
    (htext : Avoids grammar.blank text) {good : List Tree → Prop}
    (htakes : Takes (p.run grammar.blank ⟨.loose, true⟩ (grammar.call .loose)) text [] good) :
    ∃ nodes stop, Tree.parse root text = .ok (.mk root text .first (nodes ++ [stop])) ∧
      good nodes ∧ stop.rule = .endOfInput := by
  have hend : Takes (grammar.call .loose .endOfInput) [] [] (IsNode .endOfInput [] Leafless) :=
    takes_call_node grammar_grounded (by decide) takes_stop
  have hgap : Between grammar.blank ⟨.loose, true⟩ [] ([] ++ []) :=
    ⟨fun c hc => absurd hc List.not_mem_nil, avoids_nil _⟩
  have hwhole := takes_seq [] htakes hgap (takes_call hend) then_intro
  rw [List.nil_append, List.append_nil] at hwhole
  obtain ⟨nodes, attempts, hparse, parts, stops, rfl, hgood, place, children, rfl, _⟩ :=
    grammar_grounded.parse_of_takes hmode hbody htext hwhole
  refine ⟨parts, .mk .endOfInput [] place children, ?_, hgood, rfl⟩
  unfold Tree.parse
  rw [hparse]

theorem IsRoot.parse_of_takes {root rule : Rule} (hroot : IsRoot root rule) {text : List Char}
    (htext : Avoids grammar.blank text) {good : Tree → Prop}
    (hrule : ∀ part, good part → part.rule = rule)
    (htakes : Takes (grammar.call .loose rule) text [] (IsOne good)) :
    ∃ tree part, Tree.parse root text = .ok tree ∧ tree.childrenOf rule = [part] ∧ good part := by
  obtain ⟨nodes, stop, hparse, ⟨part, rfl, hgood⟩, hstop⟩ :=
    Language.parse_of_takes hroot.normal hroot.body htext (takes_call htakes)
  exact ⟨_, part, hparse, childrenOf_root hroot.other (hrule part hgood) hstop _ _, hgood⟩

/-! ## Alternatives -/

/-- What stands between two operands. -/
def binaryRules : List Rule :=
  [.power, .multiply, .divide, .modulus, .add, .subtract, .greaterOrEqual, .lessOrEqual, .notEqual,
   .equal, .greaterThan, .lessThan, .andOperator, .xorOperator, .norOperator, .orOperator]

/-- What an operand is. -/
def operandRules : List Rule :=
  [.negation, .existence, .concatenation, .postfixOperand]

/-- The literals of expressions, without the time of the evaluation. -/
def literalRules : List Rule :=
  [.nullLiteral, .boolLiteral, .dayTimestamp, .monthTimestamp, .yearTimestamp, .durationLiteral,
   .decimalLiteral, .floatLiteral, .intLiteral, .stringLiteral]

/-- What selects a part of the document or of the candidate. -/
def selectionRules : List Rule :=
  [.selection, .relativeSelection]

/-- What stands before an operation or alone. -/
def primaryRules : List Rule :=
  [.expression, .keyReference, .nowLiteral] ++ selectionRules ++ literalRules

/-- The parts of an operation that stands after its subject: keywords, and what comes last. -/
def operationForm : Rule → List (List Rule)
  | .typeCheck => [[.isKeyword], [.typeName]]
  | .negatedTypeCheck => [[.isKeyword], [.notKeyword], [.typeName]]
  | .inOperation => [[.inKeyword], [.argumentList]]
  | .notInOperation => [[.notKeyword], [.inKeyword], [.argumentList]]
  | .betweenOperation => [[.betweenKeyword], [.argumentList]]
  | .notBetweenOperation => [[.notKeyword], [.betweenKeyword], [.argumentList]]
  | .matchesOperation => [[.matchesKeyword], primaryRules]
  | .startsWithOperation => [[.startsKeyword], [.withKeyword], primaryRules]
  | .endsWithOperation => [[.endsKeyword], [.withKeyword], primaryRules]
  | .containsOperation => [[.containsKeyword], primaryRules]
  | .hasAnnotationOperation => [[.hasKeyword], [.annotationKeyword], primaryRules]
  | _ => []

/-- The operations that stand after their subject. -/
def operationRules : List Rule :=
  [.typeCheck, .negatedTypeCheck, .inOperation, .notInOperation, .betweenOperation,
   .notBetweenOperation, .matchesOperation, .startsWithOperation, .endsWithOperation,
   .containsOperation, .hasAnnotationOperation]

/-- What a path selects by, between brackets and without them. -/
def selectorRules : List Rule :=
  [.itemWildcard, .itemIndex, .itemPredicate, .propertyWildcard, .propertyPredicate, .quotedSymbol,
   .dollarIdentifier, .identifier]

/-- The scalars of values. -/
def scalarRules : List Rule :=
  literalRules ++ [.quotedSymbol, .identifier]

/-- What a value is, after its annotations. -/
def valueRules : List Rule :=
  [.listValue, .sexpValue, .structValue, .blobLiteral, .clobLiteral] ++ scalarRules

/-! ## Children -/

theorem sizeOf_child_lt {node child : Tree} (hchild : child ∈ node.children) :
    sizeOf child < sizeOf node := by
  obtain ⟨rule, text, place, children⟩ := node
  have hlt := List.sizeOf_lt_of_mem hchild
  dsimp only [Node.children] at hlt
  rw [Node.mk.sizeOf_spec]
  omega

section Children

variable {text : List Char} {place : Place} {children : List Tree}

theorem root_children {root rule : Rule}
    (hroot : (root, rule) ∈ [(Rule.expressionRoot, Rule.expression), (.pathRoot, .path),
      (.document, .value)])
    (hnode : Grown grammar (.mk root text place children)) :
    ∃ tree stop, children = [tree, stop] ∧ tree.rule = rule ∧ stop.rule = .endOfInput := by
  have hforms : ∀ pair ∈ [(Rule.expressionRoot, Rule.expression), (.pathRoot, .path),
      (.document, .value)], grammar.mode pair.1 ≠ .token ∧
        (grammar.body pair.1).fits (grammar.words 1) [[[pair.2], [.endOfInput]]] = true := by
    decide
  obtain ⟨hmode, hbody⟩ := hforms _ hroot
  have hfits := hnode.fits_form grammar_grounded hmode hbody
  obtain ⟨tree, stop, hchildren, htree, hstop⟩ := hfits.two
  exact ⟨tree, stop, hchildren, List.mem_singleton.mp htree, List.mem_singleton.mp hstop⟩

/-- An expression is a chain of operands with operators between them. -/
theorem expression_children (hnode : Grown grammar (.mk .expression text place children)) :
    ∃ (operand : Tree) (links : List (Tree × Tree)),
      children = operand :: links.flatMap (fun link => [link.1, link.2]) ∧
      operand.rule ∈ operandRules ∧
      ∀ link ∈ links, link.1.rule ∈ binaryRules ∧ link.2.rule ∈ operandRules := by
  have hoperand : (Pattern.rule Rule.operand).fits (grammar.words 2) [[operandRules]] = true := by
    decide
  have hlink : (Pattern.inOrder [.rule Rule.binaryOperator, .rule .operand]).fits (grammar.words 2)
      [[binaryRules, operandRules]] = true := by
    decide
  obtain ⟨context, rest, houter, hbody⟩ := hnode.body (by decide)
  obtain ⟨_, _, _, nodes, nodes', _, hchildren, hfirst, _, hlinks⟩ :=
    matches_seq (call_splits grammar _) hbody
  have hfits := fits_form_of_matches grammar_grounded houter hoperand hfirst
  obtain ⟨operand, rfl, hrule⟩ := hfits.one
  obtain ⟨rounds, rfl, hrounds⟩ := nodes_of_matches_star (call_splits grammar _) hlinks
  -- Every round leaves an operator and an operand.
  have hpairs : ∃ links : List (Tree × Tree),
      rounds.flatten = links.flatMap (fun link => [link.1, link.2]) ∧
      ∀ link ∈ links, link.1.rule ∈ binaryRules ∧ link.2.rule ∈ operandRules := by
    clear hchildren hlinks
    induction rounds with
    | nil => exact ⟨[], rfl, by simp⟩
    | cons round rounds ih =>
        obtain ⟨links, hflatten, hlinks⟩ := ih fun r hr => hrounds r (List.mem_cons_of_mem _ hr)
        obtain ⟨_, _, hround⟩ := hrounds round (List.mem_cons_self ..)
        have hfits := fits_form_of_matches grammar_grounded houter hlink hround
        obtain ⟨operator, operand, rfl, hoperator, hoperand⟩ := hfits.two
        refine ⟨(operator, operand) :: links, by rw [List.flatten_cons, hflatten]; rfl, ?_⟩
        exact List.forall_mem_cons.mpr ⟨⟨hoperator, hoperand⟩, hlinks⟩
  obtain ⟨links, hflatten, hlinks⟩ := hpairs
  refine ⟨operand, links, ?_, hrule, hlinks⟩
  rw [← hflatten]
  exact hchildren

theorem negation_children (hnode : Grown grammar (.mk .negation text place children)) :
    ∃ keyword operand, children = [keyword, operand] ∧ operand.rule ∈ operandRules := by
  have hforms : (grammar.body .negation).fits (grammar.words 2)
      [[[.notKeyword], operandRules]] = true := by
    decide
  have hfits := hnode.fits_form grammar_grounded (by decide) hforms
  obtain ⟨keyword, operand, hchildren, _, hoperand⟩ := hfits.two
  exact ⟨keyword, operand, hchildren, hoperand⟩

theorem existence_children (hnode : Grown grammar (.mk .existence text place children)) :
    ∃ keyword selection, children = [keyword, selection] ∧ selection.rule ∈ selectionRules := by
  have hforms : (grammar.body .existence).fits (grammar.words 1)
      [[[.existsKeyword], selectionRules]] = true := by
    decide
  have hfits := hnode.fits_form grammar_grounded (by decide) hforms
  obtain ⟨keyword, selection, hchildren, _, hselection⟩ := hfits.two
  exact ⟨keyword, selection, hchildren, hselection⟩

theorem concatenation_children (hnode : Grown grammar (.mk .concatenation text place children)) :
    ∃ keyword arguments, children = [keyword, arguments] ∧ arguments.rule = .argumentList := by
  have hforms : (grammar.body .concatenation).fits (grammar.words 1)
      [[[.concatKeyword], [.argumentList]]] = true := by
    decide
  have hfits := hnode.fits_form grammar_grounded (by decide) hforms
  obtain ⟨keyword, arguments, hchildren, _, harguments⟩ := hfits.two
  exact ⟨keyword, arguments, hchildren, List.mem_singleton.mp harguments⟩

theorem postfixOperand_children (hnode : Grown grammar (.mk .postfixOperand text place children)) :
    (∃ subject, children = [subject] ∧ subject.rule ∈ primaryRules) ∨
      ∃ subject operation, children = [subject, operation] ∧ subject.rule ∈ primaryRules ∧
        operation.rule ∈ operationRules := by
  have hforms : (grammar.body .postfixOperand).fits (grammar.words 6)
      [[primaryRules], [primaryRules, operationRules]] = true := by
    decide +kernel
  obtain ⟨form, hform, hfits⟩ := hnode.fits grammar_grounded (by decide) hforms
  simp only [List.mem_cons, List.not_mem_nil, or_false] at hform
  rcases hform with rfl | rfl
  · exact Or.inl hfits.one
  · exact Or.inr hfits.two

/-- The parts of an operation after its subject have the form that its rule provides for. -/
theorem operation_children {rule : Rule} (hrule : rule ∈ operationRules)
    (hnode : Grown grammar (.mk rule text place children)) : Fits children (operationForm rule) := by
  have hforms : ∀ rule ∈ operationRules, grammar.mode rule ≠ .token ∧
      (grammar.body rule).fits (grammar.words 6) [operationForm rule] = true := by
    decide +kernel
  obtain ⟨hmode, hbody⟩ := hforms rule hrule
  have hfits := hnode.fits_form grammar_grounded hmode hbody
  exact hfits

/-- An argument at least stands between the parentheses. -/
theorem argumentList_children (hnode : Grown grammar (.mk .argumentList text place children)) :
    children ≠ [] ∧ ∀ child ∈ children, child.rule = .expression := by
  have hslot : (grammar.body .argumentList).leavesOnly (grammar.words 1) [.expression] = true := by
    decide
  refine ⟨?_, fun child hchild => List.mem_singleton.mp
    (hnode.rule_mem grammar_grounded (by decide) hslot hchild)⟩
  obtain ⟨context, rest, houter, hbody⟩ := hnode.body (by decide)
  obtain ⟨_, _, _, _, _, _, hchildren, _, _, hinner⟩ := matches_seq (call_splits grammar _) hbody
  obtain ⟨_, _, _, _, _, _, hparts, hfirst, _, _⟩ := matches_seq (call_splits grammar _) hinner
  have hform : (Pattern.rule Rule.expression).fits (grammar.words 1) [[[.expression]]] = true := by
    decide
  obtain ⟨argument, rfl, _⟩ := (fits_form_of_matches grammar_grounded houter hform hfirst).one
  rintro rfl
  simp [hparts] at hchildren

/-! ### Paths -/

/-- A selection has its path first, and may name a kind. -/
theorem selection_children {rule part : Rule}
    (hrule : (rule, part) ∈ [(Rule.selection, Rule.path), (.relativeSelection, .relativePath)])
    (hnode : Grown grammar (.mk rule text place children)) :
    ∃ path more, children = path :: more ∧ path.rule = part := by
  have hforms : ∀ pair ∈ [(Rule.selection, Rule.path), (.relativeSelection, .relativePath)],
      grammar.mode pair.1 ≠ .token ∧ (grammar.body pair.1).fits (grammar.words 1)
        [[[pair.2]], [[pair.2], [.asKeyword], [.typeName]]] = true := by
    decide
  obtain ⟨hmode, hbody⟩ := hforms _ hrule
  obtain ⟨form, hform, hfits⟩ := hnode.fits grammar_grounded hmode hbody
  simp only [List.mem_cons, List.not_mem_nil, or_false] at hform
  rcases hform with rfl | rfl
  · obtain ⟨path, hchildren, hpath⟩ := hfits.one
    exact ⟨path, [], hchildren, List.mem_singleton.mp hpath⟩
  · obtain ⟨path, more, hchildren, hpath, _⟩ := hfits.cons
    exact ⟨path, more, hchildren, List.mem_singleton.mp hpath⟩

theorem path_children (hnode : Grown grammar (.mk .path text place children)) :
    children ≠ [] ∧ ∀ child ∈ children, child.rule = .pathSegment := by
  have hslot : (grammar.body .path).leavesOnly (grammar.words 1) [.pathSegment] = true := by
    decide
  have hfirst : (Pattern.inOrder [.lit "/", .rule Rule.pathSegment]).fits (grammar.words 1)
      [[[.pathSegment]]] = true := by
    decide
  refine ⟨?_, fun child hchild => List.mem_singleton.mp
    (hnode.rule_mem grammar_grounded (by decide) hslot hchild)⟩
  obtain ⟨context, rest, houter, hbody⟩ := hnode.body (by decide)
  obtain ⟨_, _, _, nodes, nodes', _, hchildren, hone, _, _⟩ :=
    matches_seq (call_splits grammar _) hbody
  have hfits := fits_form_of_matches grammar_grounded houter hfirst hone
  obtain ⟨segment, rfl, _⟩ := hfits.one
  intro hnil
  rw [show children = segment :: nodes' from hchildren] at hnil
  cases hnil

/-- A segment of a path holds a selector first. -/
theorem pathSegment_children (hnode : Grown grammar (.mk .pathSegment text place children)) :
    ∃ selector more, children = selector :: more ∧
      selector.rule ∈ [Rule.itemSelector, .propertySelector] := by
  have hforms : (grammar.body .pathSegment).fits (grammar.words 2)
      [[[.itemSelector, .propertySelector]],
        [[.itemSelector, .propertySelector], [.optionalMarker]]] = true := by
    decide
  obtain ⟨form, hform, hfits⟩ := hnode.fits grammar_grounded (by decide) hforms
  simp only [List.mem_cons, List.not_mem_nil, or_false] at hform
  rcases hform with rfl | rfl
  · obtain ⟨selector, hchildren, hselector⟩ := hfits.one
    exact ⟨selector, [], hchildren, hselector⟩
  · obtain ⟨selector, more, hchildren, hselector, _⟩ := hfits.cons
    exact ⟨selector, more, hchildren, hselector⟩

theorem selector_children {rule : Rule} (hrule : rule ∈ [Rule.itemSelector, .propertySelector])
    (hnode : Grown grammar (.mk rule text place children)) :
    ∃ inner, children = [inner] ∧ inner.rule ∈ selectorRules := by
  have hforms : ∀ rule ∈ [Rule.itemSelector, .propertySelector], grammar.mode rule ≠ .token ∧
      (grammar.body rule).fits (grammar.words 1) [[selectorRules]] = true := by
    decide
  obtain ⟨hmode, hbody⟩ := hforms rule hrule
  have hfits := hnode.fits_form grammar_grounded hmode hbody
  exact hfits.one

theorem predicate_children {rule : Rule} (hrule : rule ∈ [Rule.itemPredicate, .propertyPredicate])
    (hnode : Grown grammar (.mk rule text place children)) :
    ∃ body, children = [body] ∧ body.rule = .expression := by
  have hforms : ∀ rule ∈ [Rule.itemPredicate, .propertyPredicate], grammar.mode rule ≠ .token ∧
      (grammar.body rule).fits (grammar.words 1) [[[.expression]]] = true := by
    decide
  obtain ⟨hmode, hbody⟩ := hforms rule hrule
  have hfits := hnode.fits_form grammar_grounded hmode hbody
  obtain ⟨body, hchildren, hbody⟩ := hfits.one
  exact ⟨body, hchildren, List.mem_singleton.mp hbody⟩

/-! ### Values -/

/-- A value is a body after labels. -/
theorem value_children (hnode : Grown grammar (.mk .value text place children)) :
    ∃ labels body, children = labels ++ [body] ∧ (∀ label ∈ labels, label.rule = .label) ∧
      body.rule ∈ valueRules := by
  have hslot : (Pattern.star (.rule Rule.label)).leavesOnly (grammar.words 1) [.label] = true := by
    decide
  have hforms : (Pattern.rule Rule.valueBody).fits (grammar.words 3) [[valueRules]] = true := by
    decide +kernel
  obtain ⟨context, rest, houter, hmatches⟩ := hnode.body (by decide)
  obtain ⟨_, _, _, labels, nodes, _, hchildren, hlabels, _, hbody⟩ :=
    matches_seq (call_splits grammar _) hmatches
  have hfits := fits_form_of_matches grammar_grounded houter hforms hbody
  obtain ⟨body, rfl, hrule⟩ := hfits.one
  refine ⟨labels, body, hchildren, fun label hlabel => ?_, hrule⟩
  exact List.mem_singleton.mp (rule_mem_of_matches grammar_grounded houter hslot hlabels hlabel)

theorem label_children (hnode : Grown grammar (.mk .label text place children)) :
    ∃ name, children = [name] ∧ name.rule ∈ [Rule.quotedSymbol, .identifier] := by
  have hforms : (grammar.body .label).fits (grammar.words 1)
      [[[.quotedSymbol, .identifier]]] = true := by
    decide
  have hfits := hnode.fits_form grammar_grounded (by decide) hforms
  exact hfits.one

/-- What is inside of a container are values, or the fields of a struct. -/
theorem container_children {rule : Rule} (part : Rule)
    (hrule : (rule, part) ∈ [(Rule.listValue, Rule.value), (.sexpValue, .value),
      (.structValue, .structField)])
    (hnode : Grown grammar (.mk rule text place children)) :
    ∀ child ∈ children, child.rule = part := by
  have hslots : ∀ pair ∈ [(Rule.listValue, Rule.value), (.sexpValue, .value),
      (.structValue, .structField)], grammar.mode pair.1 ≠ .token ∧
        (grammar.body pair.1).leavesOnly (grammar.words 1) [pair.2] = true := by
    decide
  obtain ⟨hmode, hslot⟩ := hslots _ hrule
  intro child hchild
  exact List.mem_singleton.mp (hnode.rule_mem grammar_grounded hmode hslot hchild)

theorem structField_children (hnode : Grown grammar (.mk .structField text place children)) :
    ∃ name value, children = [name, value] ∧
      name.rule ∈ [Rule.stringLiteral, .quotedSymbol, .identifier] ∧ value.rule = .value := by
  have hforms : (grammar.body .structField).fits (grammar.words 1)
      [[[.stringLiteral, .quotedSymbol, .identifier], [.value]]] = true := by
    decide
  have hfits := hnode.fits_form grammar_grounded (by decide) hforms
  obtain ⟨name, value, hchildren, hname, hvalue⟩ := hfits.two
  exact ⟨name, value, hchildren, hname, List.mem_singleton.mp hvalue⟩

end Children

end DocQuery.Language
