import DocQuery.Expression.Reader
import DocQuery.Proofs.Language.Shape

/-!
# Trees that expressions are read from

The reader of expressions takes a tree apart by the number and the rules of its children. `Formed`
has one constructor for each shape that it knows; the trees of the grammar have no other one.

Main names:

* `Expression.Formed` — the shapes;
* `Expression.ofTree_literal`, `Expression.ofTree_selection` — what the shapes of one rule are read as;
* `Expression.readItems_operator`, `Expression.readItems_operand`, `Expression.ofTree_chain` — chains;
* `Expression.formed_of_grown` — the trees of the grammar have the shapes.
-/

namespace DocQuery.Expression

open Grammar DocQuery.Language

/-- The trees of expressions, with the places of keywords left open. -/
inductive Formed : Tree → Prop
  | lone (text : List Char) (place : Place) {operand : Tree} (hoperand : Formed operand) :
      Formed (.mk .expression text place [operand])
  | chain (text : List Char) (place : Place) {operand : Tree} {links : List (Tree × Tree)}
      (hsome : links ≠ []) (hrule : operand.rule ∈ operandRules) (hoperand : Formed operand)
      (hoperators : ∀ link ∈ links, link.1.rule ∈ binaryRules)
      (hrules : ∀ link ∈ links, link.2.rule ∈ operandRules)
      (hoperands : ∀ link ∈ links, Formed link.2) :
      Formed (.mk .expression text place (operand :: links.flatMap fun link => [link.1, link.2]))
  | negation (text : List Char) (place : Place) (keyword : Tree) {operand : Tree}
      (hoperand : Formed operand) : Formed (.mk .negation text place [keyword, operand])
  | existence (text : List Char) (place : Place) (keyword : Tree) {selection : Tree}
      (hrule : selection.rule ∈ selectionRules) (hselection : Grown grammar selection) :
      Formed (.mk .existence text place [keyword, selection])
  | concatenation (text text' : List Char) (place place' : Place) (keyword : Tree)
      {arguments : List Tree} (harguments : ∀ a ∈ arguments, Formed a) :
      Formed (.mk .concatenation text place [keyword, .mk .argumentList text' place' arguments])
  | alone (text : List Char) (place : Place) {subject : Tree} (hsubject : Formed subject) :
      Formed (.mk .postfixOperand text place [subject])
  | typeCheck (text text' : List Char) (place place' : Place) (keyword name : Tree) {subject : Tree}
      (hgrown : Grown grammar subject) (hsubject : Formed subject) :
      Formed (.mk .postfixOperand text place [subject, .mk .typeCheck text' place' [keyword, name]])
  | negatedTypeCheck (text text' : List Char) (place place' : Place) (keyword keyword' name : Tree)
      {subject : Tree} (hgrown : Grown grammar subject) (hsubject : Formed subject) :
      Formed (.mk .postfixOperand text place
        [subject, .mk .negatedTypeCheck text' place' [keyword, keyword', name]])
  | inOperation (text text' text'' : List Char) (place place' place'' : Place) (keyword : Tree)
      {subject : Tree} {arguments : List Tree} (hsubject : Formed subject) (hsome : arguments ≠ [])
      (harguments : ∀ a ∈ arguments, Formed a) :
      Formed (.mk .postfixOperand text place
        [subject, .mk .inOperation text' place' [keyword, .mk .argumentList text'' place'' arguments]])
  | notInOperation (text text' text'' : List Char) (place place' place'' : Place)
      (keyword keyword' : Tree) {subject : Tree} {arguments : List Tree} (hsubject : Formed subject)
      (hsome : arguments ≠ []) (harguments : ∀ a ∈ arguments, Formed a) :
      Formed (.mk .postfixOperand text place [subject, .mk .notInOperation text' place'
        [keyword, keyword', .mk .argumentList text'' place'' arguments]])
  | betweenOperation (text text' text'' : List Char) (place place' place'' : Place)
      (keyword : Tree) {subject : Tree} {arguments : List Tree} (hsubject : Formed subject)
      (harguments : ∀ a ∈ arguments, Formed a) :
      Formed (.mk .postfixOperand text place [subject, .mk .betweenOperation text' place'
        [keyword, .mk .argumentList text'' place'' arguments]])
  | notBetweenOperation (text text' text'' : List Char) (place place' place'' : Place)
      (keyword keyword' : Tree) {subject : Tree} {arguments : List Tree} (hsubject : Formed subject)
      (harguments : ∀ a ∈ arguments, Formed a) :
      Formed (.mk .postfixOperand text place [subject, .mk .notBetweenOperation text' place'
        [keyword, keyword', .mk .argumentList text'' place'' arguments]])
  | matchesOperation (text text' : List Char) (place place' : Place) (keyword : Tree)
      {subject argument : Tree} (hsubject : Formed subject) (hargument : Formed argument) :
      Formed (.mk .postfixOperand text place
        [subject, .mk .matchesOperation text' place' [keyword, argument]])
  | startsWithOperation (text text' : List Char) (place place' : Place) (keyword keyword' : Tree)
      {subject argument : Tree} (hsubject : Formed subject) (hargument : Formed argument) :
      Formed (.mk .postfixOperand text place
        [subject, .mk .startsWithOperation text' place' [keyword, keyword', argument]])
  | endsWithOperation (text text' : List Char) (place place' : Place) (keyword keyword' : Tree)
      {subject argument : Tree} (hsubject : Formed subject) (hargument : Formed argument) :
      Formed (.mk .postfixOperand text place
        [subject, .mk .endsWithOperation text' place' [keyword, keyword', argument]])
  | containsOperation (text text' : List Char) (place place' : Place) (keyword : Tree)
      {subject argument : Tree} (hsubject : Formed subject) (hargument : Formed argument) :
      Formed (.mk .postfixOperand text place
        [subject, .mk .containsOperation text' place' [keyword, argument]])
  | hasAnnotationOperation (text text' : List Char) (place place' : Place)
      (keyword keyword' : Tree) {subject name : Tree} (hsubject : Formed subject)
      (hname : Formed name) :
      Formed (.mk .postfixOperand text place
        [subject, .mk .hasAnnotationOperation text' place' [keyword, keyword', name]])
  | selection {tree : Tree} (hrule : tree.rule ∈ selectionRules) (hgrown : Grown grammar tree) :
      Formed tree
  | key (text : List Char) (place : Place) (children : List Tree) :
      Formed (.mk .keyReference text place children)
  | now (text : List Char) (place : Place) (children : List Tree) :
      Formed (.mk .nowLiteral text place children)
  | literal {tree : Tree} (hrule : tree.rule ∈ literalRules) (hgrown : Grown grammar tree) :
      Formed tree

/-! ## Parts without operands -/

/-- A literal is read as a constant. -/
theorem ofTree_literal {tree : Tree} (hrule : tree.rule ∈ literalRules) :
    ofTree tree =
      Parse.lift ((fun content => constant (.scalar [] content)) <$> Scalar.ofTree tree) := by
  obtain ⟨rule, text, place, children⟩ := tree
  dsimp only [Node.rule] at hrule
  rw [ofTree]
  -- The other cases are those of the other rules.
  all_goals
    intros
    rename_i heq
    cases heq
    exact absurd hrule (by decide)

/-- A selection is read as a reference. -/
theorem ofTree_selection {tree : Tree} (hrule : tree.rule ∈ selectionRules) :
    ofTree tree = Parse.lift (reference <$> Reference.ofTree tree) := by
  obtain ⟨rule, text, place, children⟩ := tree
  simp only [selectionRules, Node.rule, List.mem_cons, List.not_mem_nil, or_false] at hrule
  rcases hrule with rfl | rfl
  · rw [ofTree]
  · rw [ofTree]

/-! ## Parts of a chain -/

theorem operatorOf?_binary : ∀ rule ∈ binaryRules, (operatorOf? rule).isSome = true := by
  decide

theorem operatorOf?_operand : ∀ rule ∈ operandRules, operatorOf? rule = none := by
  decide

section Items

variable {part : Tree} {parts : List Tree}

theorem readItems_operator {op : BinaryOperator} (hop : operatorOf? part.rule = some op) :
    readItems (part :: parts) = (do return .operator op :: (← readItems parts)) := by
  rw [readItems, hop]
  rfl

theorem readItems_operand (hnone : operatorOf? part.rule = none) :
    readItems (part :: parts) =
      (do
        let e ← ofTree part
        return .operand e :: (← readItems parts)) := by
  rw [readItems, hnone]
  exact bind_map_left ..

variable {operand : Tree} {links : List (Tree × Tree)}

/-- A chain is read part by part and grouped. -/
theorem ofTree_chain (text : List Char) (place : Place) (hsome : links ≠ []) :
    ofTree (.mk .expression text place (operand :: links.flatMap fun link => [link.1, link.2])) =
      (do ofItems (← readItems (operand :: links.flatMap fun link => [link.1, link.2]))) := by
  rw [ofTree]
  intro single hparts
  cases links with
  | nil => exact hsome rfl
  | cons link links => cases hparts

/-- The parts of a chain that are no operators are its operands. -/
theorem forall_operands {holds : Tree → Prop}
    (hoperators : ∀ link ∈ links, link.1.rule ∈ binaryRules) (hoperand : holds operand)
    (hoperands : ∀ link ∈ links, holds link.2) :
    ∀ part ∈ operand :: links.flatMap (fun link => [link.1, link.2]),
      operatorOf? part.rule = none → holds part := by
  intro part hpart hnone
  rcases List.mem_cons.mp hpart with rfl | hpart
  · exact hoperand
  obtain ⟨link, hlink, hmem⟩ := List.mem_flatMap.mp hpart
  simp only [List.mem_cons, List.not_mem_nil, or_false] at hmem
  rcases hmem with rfl | rfl
  · have hoperator := operatorOf?_binary _ (hoperators link hlink)
    rw [hnone] at hoperator
    cases hoperator
  · exact hoperands link hlink

end Items

/-! ## Grown trees -/

section Grown

/-- Smaller grown trees have one of the shapes. -/
def FormedBelow (tree : Tree) : Prop :=
  ∀ t, sizeOf t < sizeOf tree → Grown grammar t → t.rule ∈ operandRules ++ primaryRules → Formed t

variable {text : List Char} {place : Place} {children : List Tree}

theorem FormedBelow.child {tree child : Tree} (hbelow : FormedBelow tree)
    (hgrown : Grown grammar tree) (hchild : child ∈ tree.children)
    (hrule : child.rule ∈ operandRules ++ primaryRules) : Formed child :=
  hbelow child (sizeOf_child_lt hchild) (hgrown.child grammar_grounded hchild) hrule

/-- A list below a tree has arguments, and they have the shapes. -/
theorem FormedBelow.arguments {tree list : Tree} (hbelow : FormedBelow tree)
    (hsize : sizeOf list < sizeOf tree) (hgrown : Grown grammar list)
    (hlist : list.rule = .argumentList) :
    list.children ≠ [] ∧ ∀ a ∈ list.children, Formed a := by
  obtain ⟨rule, text', place', arguments⟩ := list
  obtain rfl : rule = .argumentList := hlist
  obtain ⟨hsome, hrules⟩ := argumentList_children hgrown
  refine ⟨hsome, fun a ha => ?_⟩
  refine hbelow a (Nat.lt_trans (sizeOf_child_lt ha) hsize) (hgrown.child grammar_grounded ha) ?_
  rw [hrules a ha]
  decide

theorem formed_expression (hgrown : Grown grammar (.mk .expression text place children))
    (hbelow : FormedBelow (.mk .expression text place children)) :
    Formed (.mk .expression text place children) := by
  obtain ⟨operand, links, rfl, hrule, hlinks⟩ := expression_children hgrown
  have hoperand : Formed operand :=
    hbelow.child hgrown (List.mem_cons_self ..) (List.mem_append_left _ hrule)
  cases links with
  | nil => exact .lone text place hoperand
  | cons link links =>
      refine .chain text place (List.cons_ne_nil _ _) hrule hoperand (fun l hl => (hlinks l hl).1)
        (fun l hl => (hlinks l hl).2) fun l hl => ?_
      refine hbelow.child hgrown (List.mem_cons_of_mem _ ?_) (List.mem_append_left _ (hlinks l hl).2)
      exact List.mem_flatMap.mpr ⟨l, hl, by simp⟩

theorem formed_operation {subject operation : Tree}
    (hgrown : Grown grammar (.mk .postfixOperand text place [subject, operation]))
    (hbelow : FormedBelow (.mk .postfixOperand text place [subject, operation]))
    (hrule : operation.rule ∈ operationRules) (hsubject : Formed subject) :
    Formed (.mk .postfixOperand text place [subject, operation]) := by
  have hmem : operation ∈ [subject, operation] := by simp
  have hoperation : Grown grammar operation := hgrown.child grammar_grounded hmem
  have hleft : Grown grammar subject := hgrown.child grammar_grounded (List.mem_cons_self ..)
  have hsize : sizeOf operation < sizeOf (Node.mk Rule.postfixOperand text place
      [subject, operation]) := sizeOf_child_lt hmem
  have hlast : ∀ t ∈ operation.children, t.rule ∈ primaryRules → Formed t := fun t ht hrule =>
    hbelow t (Nat.lt_trans (sizeOf_child_lt ht) hsize) (hoperation.child grammar_grounded ht)
      (List.mem_append_right _ hrule)
  have hlist : ∀ t ∈ operation.children, t.rule = .argumentList →
      t.children ≠ [] ∧ ∀ a ∈ t.children, Formed a := fun t ht =>
    hbelow.arguments (Nat.lt_trans (sizeOf_child_lt ht) hsize)
      (hoperation.child grammar_grounded ht)
  obtain ⟨rule, text', place', parts⟩ := operation
  have hfits : Fits parts (operationForm rule) := operation_children hrule hoperation
  simp only [operationRules, Node.rule, List.mem_cons, List.not_mem_nil, or_false] at hrule
  -- The form of a rule tells how many parts there are; the last of them holds the arguments.
  rcases hrule with rfl | rfl | rfl | rfl | rfl | rfl | rfl | rfl | rfl | rfl | rfl
  · obtain ⟨keyword, name, rfl, _, _⟩ := hfits.two
    exact .typeCheck text text' place place' keyword name hleft hsubject
  · obtain ⟨keyword, keyword', name, rfl, _, _, _⟩ := hfits.three
    exact .negatedTypeCheck text text' place place' keyword keyword' name hleft hsubject
  · obtain ⟨keyword, ⟨_, text'', place'', arguments⟩, rfl, _, hlistRule⟩ := hfits.two
    obtain rfl := List.mem_singleton.mp hlistRule
    obtain ⟨hsome, harguments⟩ := hlist (.mk _ text'' place'' arguments) (by simp [Node.children]) rfl
    exact .inOperation text text' text'' place place' place'' keyword hsubject hsome harguments
  · obtain ⟨keyword, keyword', ⟨_, text'', place'', arguments⟩, rfl, _, _, hlistRule⟩ := hfits.three
    obtain rfl := List.mem_singleton.mp hlistRule
    obtain ⟨hsome, harguments⟩ := hlist (.mk _ text'' place'' arguments) (by simp [Node.children]) rfl
    exact .notInOperation text text' text'' place place' place'' keyword keyword' hsubject hsome
      harguments
  · obtain ⟨keyword, ⟨_, text'', place'', arguments⟩, rfl, _, hlistRule⟩ := hfits.two
    obtain rfl := List.mem_singleton.mp hlistRule
    obtain ⟨_, harguments⟩ := hlist (.mk _ text'' place'' arguments) (by simp [Node.children]) rfl
    exact .betweenOperation text text' text'' place place' place'' keyword hsubject harguments
  · obtain ⟨keyword, keyword', ⟨_, text'', place'', arguments⟩, rfl, _, _, hlistRule⟩ := hfits.three
    obtain rfl := List.mem_singleton.mp hlistRule
    obtain ⟨_, harguments⟩ := hlist (.mk _ text'' place'' arguments) (by simp [Node.children]) rfl
    exact .notBetweenOperation text text' text'' place place' place'' keyword keyword' hsubject
      harguments
  · obtain ⟨keyword, argument, rfl, _, hargument⟩ := hfits.two
    exact .matchesOperation text text' place place' keyword hsubject
      (hlast _ (by simp [Node.children]) hargument)
  · obtain ⟨keyword, keyword', argument, rfl, _, _, hargument⟩ := hfits.three
    exact .startsWithOperation text text' place place' keyword keyword' hsubject
      (hlast _ (by simp [Node.children]) hargument)
  · obtain ⟨keyword, keyword', argument, rfl, _, _, hargument⟩ := hfits.three
    exact .endsWithOperation text text' place place' keyword keyword' hsubject
      (hlast _ (by simp [Node.children]) hargument)
  · obtain ⟨keyword, argument, rfl, _, hargument⟩ := hfits.two
    exact .containsOperation text text' place place' keyword hsubject
      (hlast _ (by simp [Node.children]) hargument)
  · obtain ⟨keyword, keyword', name, rfl, _, _, hname⟩ := hfits.three
    exact .hasAnnotationOperation text text' place place' keyword keyword' hsubject
      (hlast _ (by simp [Node.children]) hname)

/-- The trees of operands and of what stands between operations have one of the shapes. -/
theorem formed_of_grown {tree : Tree} (hgrown : Grown grammar tree)
    (hrule : tree.rule ∈ operandRules ++ primaryRules) : Formed tree := by
  induction hsize : sizeOf tree using Nat.strongRecOn generalizing tree with
  | ind size ih =>
      subst hsize
      -- The shapes nest through lists of arguments, so the induction is on the size of the tree.
      have hbelow : FormedBelow tree := fun t hlt hgrown hrule => ih _ hlt hgrown hrule rfl
      obtain ⟨rule, text, place, children⟩ := tree
      by_cases hliteral : rule ∈ literalRules
      · exact .literal hliteral hgrown
      by_cases hselection : rule ∈ selectionRules
      · exact .selection hselection hgrown
      simp only [operandRules, primaryRules, Node.rule, List.mem_append, List.mem_cons,
        List.not_mem_nil, or_false, hliteral, hselection] at hrule
      rcases hrule with (rfl | rfl | rfl | rfl) | (rfl | rfl | rfl)
      · obtain ⟨keyword, operand, rfl, hoperand⟩ := negation_children hgrown
        exact .negation text place keyword
          (hbelow.child hgrown (by simp [Node.children]) (List.mem_append_left _ hoperand))
      · obtain ⟨keyword, selection, rfl, hselection⟩ := existence_children hgrown
        exact .existence text place keyword hselection
          (hgrown.child grammar_grounded (by simp [Node.children]))
      · obtain ⟨keyword, ⟨_, text', place', arguments⟩, rfl, hlist⟩ :=
          concatenation_children hgrown
        obtain rfl : _ = Rule.argumentList := hlist
        have hmem : Node.mk Rule.argumentList text' place' arguments ∈ (Node.mk Rule.concatenation
            text place [keyword, .mk .argumentList text' place' arguments]).children := by
          simp [Node.children]
        exact .concatenation text text' place place' keyword
          (hbelow.arguments (sizeOf_child_lt hmem) (hgrown.child grammar_grounded hmem) rfl).2
      · rcases postfixOperand_children hgrown with
          ⟨subject, rfl, hsubject⟩ | ⟨subject, operation, rfl, hsubject, hoperation⟩
        · exact .alone text place (hbelow.child hgrown (List.mem_cons_self ..)
            (List.mem_append_right _ hsubject))
        · exact formed_operation hgrown hbelow hoperation (hbelow.child hgrown
            (List.mem_cons_self ..) (List.mem_append_right _ hsubject))
      · exact formed_expression hgrown hbelow
      · exact .key text place children
      · exact .now text place children

end Grown

end DocQuery.Expression
