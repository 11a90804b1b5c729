import DocQuery.PathTree.Build
import DocQuery.Proofs.Expression.Formed
import DocQuery.Proofs.Language.Defects
import DocQuery.Proofs.Operator.UniqueTree
import DocQuery.Query.Reader

/-!
# No reader fails for a defect

Expressions are read from trees that have one of the shapes that their reader knows, and the
sequences that are grouped on the way alternate and have ranked operators. So a text that is refused
by any of the readers is refused for what it says.

Main names:

* `FaultlessRead` — reading with patterns whose failures lie with the text;
* `Groupable`, `gives_groupable` — the sequences that are grouped;
* `Expression.faultlessRead_ofTree` — the reader of expressions, by induction on the shapes of trees;
* `readers_faultless` — all readers.
-/

namespace DocQuery

open Grammar DocQuery.Language Operator

/-! ## Reading with patterns -/

/-- Whatever patterns are kept, a failure to read lies with the text. -/
def FaultlessRead {α : Type} (x : Parse α) : Prop :=
  Fails x fun e => ¬ e.IsDefect

section Rules

variable {α β : Type}

theorem faultlessRead_pure (a : α) : FaultlessRead (pure a) :=
  fails_pure a

theorem faultlessRead_lift {result : Except ParseError α} (hresult : Faultless result) :
    FaultlessRead (Parse.lift result) :=
  fails_lift hresult

theorem faultlessRead_checked (result : Except KindFault α) :
    FaultlessRead (Parse.checked result) := by
  refine faultlessRead_lift fun e he => ?_
  cases result with
  | ok a => cases he
  | error fault =>
      cases he
      exact id

theorem faultlessRead_compile (pattern : String) : FaultlessRead (Parse.compile pattern) := by
  intro cache cache' e hrun
  unfold Parse.compile at hrun
  dsimp only [ExceptT.run, ExceptT.mk, StateT.run] at hrun
  rcases hrequest : cache.request pattern with ⟨_ | regex, kept⟩
  · rw [hrequest] at hrun
    cases hrun
    exact id
  · rw [hrequest] at hrun
    cases hrun

theorem FaultlessRead.bind {x : Parse α} {f : α → Parse β} (hx : FaultlessRead x)
    (hf : ∀ a, FaultlessRead (f a)) : FaultlessRead (x >>= f) :=
  fails_bind hx (gives_true x) fun a _ => hf a

theorem faultlessRead_mapM {f : α → Parse β} {as : List α} (hf : ∀ a ∈ as, FaultlessRead (f a)) :
    FaultlessRead (as.mapM f) := by
  induction as with
  | nil => exact faultlessRead_pure []
  | cons a as ih =>
      obtain ⟨hfirst, hothers⟩ := List.forall_mem_cons.mp hf
      rw [List.mapM_cons]
      exact hfirst.bind fun _ => (ih hothers).bind fun _ => faultlessRead_pure _

end Rules

/-! ## Sequences of operands and operators -/

/-- A sequence that can be grouped: operands and ranked operators by turns, and two operands or
more. -/
structure Groupable (items : List (Item Expression BinaryOperator)) : Prop where
  alternates : Alternates items
  two : 3 ≤ items.length
  ranked : ∀ op, Item.operator op ∈ items → Ranked BinaryOperator.tiers op

theorem ranked_tiers (op : BinaryOperator) : Ranked BinaryOperator.tiers op := by
  have hall : ∀ op ∈ BinaryOperator.all, Ranked BinaryOperator.tiers op := by
    intro op hop
    obtain ⟨members, hmembers, hmem⟩ := List.mem_flatten.mp hop
    exact ⟨members, hmembers, List.contains_iff_mem.mpr hmem⟩
  refine hall op ?_
  rcases op with op | op | op <;> cases op <;> decide

theorem alternates_links (e : Expression) (links : List (BinaryOperator × Expression)) :
    Alternates (.operand e :: links.flatMap fun link => [.operator link.1, .operand link.2]) := by
  induction links generalizing e with
  | nil => exact .last e
  | cons link links ih => exact .more e link.1 (ih link.2)

theorem groupable_links (e : Expression) {links : List (BinaryOperator × Expression)}
    (hsome : links ≠ []) :
    Groupable (.operand e :: links.flatMap fun link => [.operator link.1, .operand link.2]) where
  alternates := alternates_links e links
  two := by
    cases links with
    | nil => exact absurd rfl hsome
    | cons link links => simp
  ranked op _ := ranked_tiers op

/-- Combining operands along a tree fails only where an operator fails. -/
theorem foldM_eq_error {ε α ο : Type} {build : α → α → ο → Except ε α} {t : OperatorTree α ο}
    {e : ε} (he : t.foldM build = .error e) : ∃ left right op, build left right op = .error e := by
  induction t with
  | leaf a => cases he
  | node left op right ihLeft ihRight =>
      rcases bind_eq_error he with he | ⟨l, _, he⟩
      · exact ihLeft he
      · rcases bind_eq_error he with he | ⟨r, _, he⟩
        · exact ihRight he
        · exact ⟨l, r, op, he⟩

/-- A sequence that can be grouped is refused only for the kinds of its operands. -/
theorem faultlessRead_ofItems {items : List (Item Expression BinaryOperator)}
    (hitems : Groupable items) : FaultlessRead (Expression.ofItems items) := by
  refine faultlessRead_lift fun e he => ?_
  obtain ⟨first, found, rfl, hlinks⟩ := hitems.alternates.exists_links hitems.ranked
  have hsome : found ≠ [] := by
    rintro rfl
    exact absurd hitems.two (by simp)
  have hranked : ∀ link ∈ found,
      strength? BinaryOperator.tiers link.operator = some link.strength := by
    intro link hlink
    rw [(hitems.ranked _ (hlinks link hlink).1).strength?_eq, (hlinks link hlink).2]
  rw [groupWith_links _ _ hsome hranked, combine_eq_foldM] at he
  obtain ⟨left, right, op, he⟩ := foldM_eq_error he
  cases hbinary : Expression.ofBinary left right op with
  | ok e' =>
      rw [hbinary] at he
      cases he
  | error fault =>
      rw [hbinary] at he
      cases he
      exact id

namespace Expression

section Items

variable {part : Tree} {parts : List Tree}

/-- Operators with the operands after them. -/
def IsLinks (count : Nat) (items : List (Item Expression BinaryOperator)) : Prop :=
  ∃ links : List (BinaryOperator × Expression), links.length = count ∧
    items = links.flatMap fun link => [.operator link.1, .operand link.2]

theorem gives_operand {count : Nat} (hrule : part.rule ∈ operandRules)
    (hparts : Gives (readItems parts) (IsLinks count)) :
    Gives (readItems (part :: parts)) fun items =>
      ∃ e more, items = .operand e :: more ∧ IsLinks count more := by
  rw [readItems_operand (operatorOf?_operand _ hrule)]
  exact gives_bind (gives_true _) fun e _ => gives_bind hparts fun more hmore =>
    gives_pure ⟨e, more, rfl, hmore⟩

variable {operand : Tree} {links : List (Tree × Tree)}

theorem gives_links (hoperators : ∀ link ∈ links, link.1.rule ∈ binaryRules)
    (hrules : ∀ link ∈ links, link.2.rule ∈ operandRules) :
    Gives (readItems (links.flatMap fun link => [link.1, link.2])) (IsLinks links.length) := by
  induction links with
  | nil =>
      rw [List.flatMap_nil, readItems]
      exact gives_pure ⟨[], rfl, rfl⟩
  | cons link links ih =>
      obtain ⟨hoperator, hoperators⟩ := List.forall_mem_cons.mp hoperators
      obtain ⟨hrule, hrules⟩ := List.forall_mem_cons.mp hrules
      obtain ⟨op, hop⟩ := Option.isSome_iff_exists.mp (operatorOf?_binary _ hoperator)
      rw [List.flatMap_cons, List.cons_append, List.cons_append, List.nil_append,
        readItems_operator hop]
      refine gives_bind (gives_operand hrule (ih hoperators hrules)) ?_
      rintro _ ⟨e, _, rfl, found, hlength, rfl⟩
      exact gives_pure ⟨(op, e) :: found, by simp [hlength], rfl⟩

/-- The parts of an expression are read as a sequence that can be grouped. -/
theorem gives_groupable (hsome : links ≠ []) (hrule : operand.rule ∈ operandRules)
    (hoperators : ∀ link ∈ links, link.1.rule ∈ binaryRules)
    (hrules : ∀ link ∈ links, link.2.rule ∈ operandRules) :
    Gives (readItems (operand :: links.flatMap fun link => [link.1, link.2])) Groupable := by
  intro cache cache' items hrun
  obtain ⟨e, _, rfl, found, hlength, rfl⟩ :=
    gives_operand hrule (gives_links hoperators hrules) cache cache' items hrun
  refine groupable_links e ?_
  rintro rfl
  exact hsome (List.length_eq_zero_iff.mp hlength.symm)

end Items

/-! ## References -/

end Expression

theorem Reference.faultless_readExpected (tree : Tree) : Faultless (readExpected tree) := by
  unfold readExpected
  split
  · exact faultless_ok _
  · split
    · exact faultless_ok _
    · exact faultless_error id

theorem Reference.faultless_ofTree {tree : Tree} (hgrown : Grown grammar tree)
    (hrule : tree.rule ∈ selectionRules) : Faultless (ofTree tree) := by
  have hpaths : ∀ t, Grown grammar t → ∀ path ∈ t.childrenOf .path,
      Faultless (Path.ofTree path) := by
    intro t ht path hpath
    obtain ⟨hmem, hpathRule⟩ := mem_childrenOf.mp hpath
    exact Path.faultless_ofTree (ht.child grammar_grounded hmem) hpathRule
  obtain ⟨rule, text, place, children⟩ := tree
  simp only [selectionRules, Node.rule, List.mem_cons, List.not_mem_nil, or_false] at hrule
  rcases hrule with rfl | rfl
  · have hpair : (Rule.selection, Rule.path) ∈
        [(Rule.selection, Rule.path), (.relativeSelection, .relativePath)] := by
      decide
    obtain ⟨path, more, rfl, hpath⟩ := selection_children hpair hgrown
    have hfound : path ∈ Node.childrenOf Rule.path (.mk Rule.selection text place (path :: more)) :=
      mem_childrenOf.mpr ⟨List.mem_cons_self .., hpath⟩
    unfold ofTree
    dsimp only [Node.rule]
    split
    · rename_i hnone
      rw [hnone] at hfound
      cases hfound
    · rename_i found _ hsome
      refine (hpaths _ hgrown found (by rw [hsome]; exact List.mem_cons_self ..)).bind ?_
      exact fun _ _ => (faultless_readExpected _).bind fun _ _ => faultless_ok _
  · have hpair : (Rule.relativeSelection, Rule.relativePath) ∈
        [(Rule.selection, Rule.path), (.relativeSelection, .relativePath)] := by
      decide
    obtain ⟨relative, more, rfl, hrelative⟩ := selection_children hpair hgrown
    have hfound : relative ∈ Node.childrenOf Rule.relativePath
        (.mk Rule.relativeSelection text place (relative :: more)) :=
      mem_childrenOf.mpr ⟨List.mem_cons_self .., hrelative⟩
    unfold ofTree
    dsimp only [Node.rule]
    split
    · rename_i hnone
      rw [hnone] at hfound
      cases hfound
    · rename_i found _ hsome
      have hmem : found ∈ Node.childrenOf Rule.relativePath
          (.mk Rule.relativeSelection text place (relative :: more)) := by
        rw [hsome]
        exact List.mem_cons_self ..
      have hgrown' := hgrown.child grammar_grounded (mem_childrenOf.mp hmem).1
      split
      · exact (faultless_ok _).bind fun _ _ => (faultless_readExpected _).bind fun _ _ =>
          faultless_ok _
      · rename_i path _ hsome'
        refine Faultless.bind ((hpaths _ hgrown' path ?_).map _) fun _ _ =>
          (faultless_readExpected _).bind fun _ _ => faultless_ok _
        rw [hsome']
        exact List.mem_cons_self ..

/-! ## Expressions -/

namespace Expression

theorem faultlessRead_readKindTest {subject : Tree} (hgrown : Grown grammar subject)
    (name : List Char) (negated : Bool) :
    FaultlessRead (Parse.lift (readKindTest subject name negated)) := by
  refine faultlessRead_lift ?_
  unfold readKindTest
  split
  case h_1 hrule | h_2 hrule =>
    refine (Reference.faultless_ofTree hgrown (by simp [selectionRules, hrule])).bind fun r _ => ?_
    split
    · exact faultless_ok _
    · exact faultless_error id
  case h_3 => exact faultless_error id

theorem faultlessRead_readMatching (op : MatchOperator) (subject argument : Expression) :
    FaultlessRead (readMatching op subject argument) := by
  unfold readMatching
  refine (faultlessRead_checked _).bind fun e => ?_
  cases fixedPattern? op argument with
  | some pattern => exact (faultlessRead_compile _).bind fun _ => faultlessRead_pure _
  | none => exact faultlessRead_pure e

theorem faultlessRead_readAll {arguments : List Tree}
    (harguments : ∀ a ∈ arguments, FaultlessRead (ofTree a)) :
    FaultlessRead (readAll arguments) := by
  induction arguments with
  | nil =>
      rw [readAll]
      exact faultlessRead_pure _
  | cons a arguments ih =>
      obtain ⟨hfirst, hothers⟩ := List.forall_mem_cons.mp harguments
      rw [readAll]
      exact hfirst.bind fun _ => (ih hothers).bind fun _ => faultlessRead_pure _

theorem faultlessRead_readItems {parts : List Tree}
    (hparts : ∀ part ∈ parts, operatorOf? part.rule = none → FaultlessRead (ofTree part)) :
    FaultlessRead (readItems parts) := by
  induction parts with
  | nil =>
      rw [readItems]
      exact faultlessRead_pure _
  | cons part parts ih =>
      obtain ⟨hfirst, hothers⟩ := List.forall_mem_cons.mp hparts
      cases hop : operatorOf? part.rule with
      | some op =>
          rw [readItems_operator hop]
          exact (ih hothers).bind fun _ => faultlessRead_pure _
      | none =>
          rw [readItems_operand hop]
          exact (hfirst hop).bind fun _ => (ih hothers).bind fun _ => faultlessRead_pure _

/-- The induction is on the shapes; what is grouped, and what a kind is tested of, has the rule that
its reader asks for. -/
theorem faultlessRead_ofTree {tree : Tree} (htree : Formed tree) : FaultlessRead (ofTree tree) := by
  induction htree with
  | lone text place hoperand ih =>
      rw [ofTree]
      exact ih
  | chain text place hsome hrule hoperand hoperators hrules hoperands ih ihs =>
      rw [ofTree_chain text place hsome]
      exact fails_bind (faultlessRead_readItems (forall_operands hoperators ih ihs))
        (gives_groupable hsome hrule hoperators hrules) fun _ => faultlessRead_ofItems
  | negation text place keyword hoperand ih =>
      rw [ofTree]
      exact ih.bind fun _ => faultlessRead_checked _
  | existence text place keyword hrule hselection =>
      rw [ofTree]
      exact faultlessRead_lift ((Reference.faultless_ofTree hselection hrule).map _)
  | concatenation text text' place place' keyword harguments ih =>
      rw [ofTree]
      exact (faultlessRead_readAll ih).bind fun _ => faultlessRead_checked _
  | alone text place hsubject ih =>
      rw [ofTree]
      exact ih
  | typeCheck text text' place place' keyword name hgrown hsubject ih
  | negatedTypeCheck text text' place place' keyword keyword' name hgrown hsubject ih =>
      rw [ofTree, readOperation]
      exact faultlessRead_readKindTest hgrown _ _
  | inOperation text text' text'' place place' place'' keyword hsubject hsome harguments ih ihs
  | notInOperation text text' text'' place place' place'' keyword keyword' hsubject hsome harguments
      ih ihs
  | betweenOperation text text' text'' place place' place'' keyword hsubject harguments ih ihs
  | notBetweenOperation text text' text'' place place' place'' keyword keyword' hsubject harguments
      ih ihs =>
      rw [ofTree, readOperation]
      exact (faultlessRead_readAll ihs).bind fun _ => ih.bind fun _ => faultlessRead_checked _
  | matchesOperation text text' place place' keyword hsubject hargument ih ihArgument
  | containsOperation text text' place place' keyword hsubject hargument ih ihArgument
  | startsWithOperation text text' place place' keyword keyword' hsubject hargument ih ihArgument
  | endsWithOperation text text' place place' keyword keyword' hsubject hargument ih ihArgument =>
      rw [ofTree, readOperation]
      exact ihArgument.bind fun _ => ih.bind fun _ => faultlessRead_readMatching _ _ _
  | hasAnnotationOperation text text' place place' keyword keyword' hsubject hname ih ihName =>
      rw [ofTree, readOperation]
      exact ihName.bind fun _ => ih.bind fun _ => faultlessRead_checked _
  | selection hrule hgrown =>
      rw [ofTree_selection hrule]
      exact faultlessRead_lift ((Reference.faultless_ofTree hgrown hrule).map _)
  | key text place children =>
      rw [ofTree]
      exact faultlessRead_pure _
  | now text place children =>
      rw [ofTree]
      exact faultlessRead_pure _
  | literal hrule hgrown =>
      rw [ofTree_literal hrule]
      exact faultlessRead_lift ((Scalar.faultless_ofTree (List.mem_append_left _ hrule)).map _)

theorem formed_of_rule {tree : Tree} (hgrown : Grown grammar tree) (hrule : tree.rule = .expression) :
    Formed tree :=
  formed_of_grown hgrown (by rw [hrule]; decide)

theorem faultlessRead_read (text : String) : FaultlessRead (read text) := by
  unfold read
  refine fails_bind (faultlessRead_lift (faultless_parseTree (by decide) _))
    (gives_lift fun root hroot => hroot) fun root hroot => ?_
  obtain ⟨tree, _, _, htrees, hgrown, hrule⟩ := root_of_parseTree .expression (by decide) hroot
  rw [htrees]
  exact faultlessRead_ofTree (formed_of_rule hgrown hrule)

end Expression

/-! ## Queries -/

section Queries

/-- The predicate of a step is the tree of an expression. -/
def WrittenStep.Formed : WrittenStep → Prop
  | plain _ => True
  | fieldsWhere predicate | itemsWhere predicate => Expression.Formed predicate

theorem formed_of_readPredicate {tree body : Tree} (hgrown : Grown grammar tree)
    (hbody : WrittenStep.readPredicate tree = .ok body) : Expression.Formed body := by
  unfold WrittenStep.readPredicate at hbody
  split at hbody
  · rename_i found _ hfound
    cases hbody
    have hmem : body ∈ tree.childrenOf .expression := by
      rw [hfound]
      exact List.mem_cons_self ..
    obtain ⟨hchild, hrule⟩ := mem_childrenOf.mp hmem
    exact Expression.formed_of_rule (hgrown.child grammar_grounded hchild) hrule
  · cases hbody

theorem WrittenStep.formed_of_ofSelector {path : List Char} {tree : Tree} {step : WrittenStep}
    (hgrown : Grown grammar tree) (hstep : ofSelector path tree = .ok step) : step.Formed := by
  unfold ofSelector at hstep
  split at hstep
  case h_1 | h_2 | h_3 | h_5 =>
    cases hstep
    trivial
  case h_4 =>
    obtain ⟨name, _, hstep⟩ := bind_eq_ok hstep
    cases hstep
    trivial
  case h_6 =>
    dsimp only at hstep
    split at hstep
    · cases hstep
      trivial
    · cases hstep
  case h_7 | h_8 =>
    obtain ⟨body, hbody, hstep⟩ := bind_eq_ok hstep
    cases hstep
    exact formed_of_readPredicate hgrown hbody
  case h_9 => cases hstep

theorem WrittenStep.formed_of_ofPath {tree : Tree} {written : List (WrittenStep × Bool)}
    (hgrown : Grown grammar tree) (hwritten : ofPath tree = .ok written) :
    ∀ step ∈ written, step.1.Formed := by
  intro step hstep
  obtain ⟨segment, hsegment, hread⟩ := exists_of_mem_mapM hwritten hstep
  have hsegmentGrown := hgrown.child grammar_grounded (mem_childrenOf.mp hsegment).1
  unfold ofTree at hread
  dsimp only at hread
  split at hread
  · rename_i inner _ _ hchildren
    obtain ⟨found, hfound, hread⟩ := bind_eq_ok hread
    cases hread
    refine formed_of_ofSelector ?_ hfound
    have hselector := hsegmentGrown.child grammar_grounded (hchildren ▸ List.mem_cons_self ..)
    exact hselector.child grammar_grounded (List.mem_cons_self ..)
  · cases hread

theorem faultlessRead_ofWritten {step : WrittenStep} (hstep : step.Formed) :
    FaultlessRead (QueryStep.ofWritten step) := by
  have hpredicate : ∀ tree, Expression.Formed tree → FaultlessRead (QueryStep.readPredicate tree) := by
    intro tree htree
    refine (Expression.faultlessRead_ofTree htree).bind fun e => ?_
    split
    · exact faultlessRead_pure _
    · exact faultlessRead_checked _
  cases step with
  | plain selector => exact faultlessRead_pure _
  | fieldsWhere tree | itemsWhere tree =>
      exact (hpredicate tree hstep).bind fun _ => faultlessRead_pure _

theorem Query.faultlessRead_read (text : String) : FaultlessRead (Query.read text) := by
  unfold Query.read
  refine fails_bind (faultlessRead_lift (faultless_parseTree (by decide) _))
    (gives_lift fun root hroot => hroot) fun root hroot => ?_
  obtain ⟨tree, _, _, htrees, hgrown, hrule⟩ := root_of_parseTree .path (by decide) hroot
  rw [htrees]
  refine fails_bind (faultlessRead_lift (WrittenStep.faultless_ofPath hgrown))
    (gives_lift fun written hwritten => hwritten) fun written hwritten => ?_
  have hsteps := WrittenStep.formed_of_ofPath hgrown hwritten
  exact (faultlessRead_mapM fun step hstep => faultlessRead_ofWritten (hsteps step hstep)).bind
    fun _ => faultlessRead_pure _

end Queries

/-! ## Path sets -/

theorem PathTree.faultless_read (text : String) : Faultless (PathTree.read text) := by
  refine (Path.faultless_readAll text).bind fun paths _ => ?_
  cases ofPaths paths with
  | ok tree => exact faultless_ok tree
  | error error => exact faultless_error id

/-! ## All readers -/

/-- A tree, or a node anywhere below it. -/
inductive Contains : Tree → Tree → Prop
  | here (tree : Tree) : Contains tree tree
  | inside {tree child node : Tree} (hchild : child ∈ tree.children) (hnode : Contains child node) :
      Contains tree node

theorem Contains.grown {tree node : Tree} (hnode : Contains tree node)
    (hgrown : Grown grammar tree) : Grown grammar node := by
  induction hnode with
  | here tree => exact hgrown
  | inside hchild _ ih => exact ih (hgrown.child grammar_grounded hchild)

/-- The expressions in a tree have the shapes that their reader knows, and the parts of those that
it groups are read as sequences that can be grouped. -/
def ExpressionsFormed (tree : Tree) : Prop :=
  ∀ node, Contains tree node → node.rule = .expression →
    Expression.Formed node ∧
      (node.children.length ≠ 1 → Gives (Expression.readItems node.children) Groupable)

theorem expressionsFormed_of_grown {tree : Tree} (hgrown : Grown grammar tree) :
    ExpressionsFormed tree := by
  intro node hnode hrule
  have hgrown' := hnode.grown hgrown
  refine ⟨Expression.formed_of_rule hgrown' hrule, fun hcount => ?_⟩
  obtain ⟨rule, text, place, children⟩ := node
  obtain rfl : rule = .expression := hrule
  obtain ⟨operand, links, rfl, hoperand, hlinks⟩ := expression_children hgrown'
  refine Expression.gives_groupable ?_ hoperand (fun l hl => (hlinks l hl).1)
    fun l hl => (hlinks l hl).2
  rintro rfl
  exact hcount rfl

end DocQuery
