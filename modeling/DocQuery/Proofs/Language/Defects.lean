import DocQuery.Path.Reader
import DocQuery.Proofs.Language.Shape
import DocQuery.Proofs.Sequencing
import DocQuery.Value.Reader

/-!
# Failures lie with the text

A reader that meets a tree of a shape it does not know, or a sequence that cannot be grouped, says
so: such a failure would be a defect of the program and not of the text. The trees of the grammar
never have such a shape, so what is refused of names, scalars, paths and values is refused for
what the text says.

Main names:

* `ParseError.IsDefect`, `Faultless` — the failures that would be defects, and results without them;
* `faultless_parseTree` — the grammar itself;
* `Scalar.faultless_ofTree`, `Path.faultless_ofTree`, `Value.faultless_ofTree` — the readers.
-/

namespace DocQuery

open Grammar DocQuery.Language

/-- A failure that lies with the program: a tree of another shape than its rule gives it, or a
sequence of operands and operators that cannot be grouped. -/
def ParseError.IsDefect : ParseError → Prop
  | .syntactic (.internal _ _) => True
  | .grouping _ => True
  | _ => False

/-- Where there is no result, the failure lies with the text. -/
def Faultless {α : Type} (result : Except ParseError α) : Prop :=
  ∀ e, result = .error e → ¬ e.IsDefect

section Rules

variable {α β : Type}

theorem faultless_ok (a : α) : Faultless (.ok a) := by
  intro e he
  cases he

theorem faultless_error {e : ParseError} (he : ¬ e.IsDefect) : Faultless (.error e : Except _ α) := by
  intro e' he'
  cases he'
  exact he

theorem Faultless.bind {result : Except ParseError α} {f : α → Except ParseError β}
    (hresult : Faultless result) (hf : ∀ a, result = .ok a → Faultless (f a)) :
    Faultless (result >>= f) := by
  intro e he
  rcases bind_eq_error he with he | ⟨a, ha, he⟩
  · exact hresult e he
  · exact hf a ha e he

theorem Faultless.map {result : Except ParseError α} (hresult : Faultless result) (f : α → β) :
    Faultless (f <$> result) := by
  rw [map_eq_pure_bind]
  exact hresult.bind fun a _ => faultless_ok (f a)

theorem faultless_mapM {f : α → Except ParseError β} {as : List α}
    (hf : ∀ a ∈ as, Faultless (f a)) : Faultless (as.mapM f) := by
  intro e he
  obtain ⟨a, ha, he⟩ := mapM_eq_error he
  exact hf a ha e he

end Rules

/-! ## Trees -/

/-- The grammar gives a whole text a tree, or says where it stops to match. -/
theorem faultless_parseTree {rule : Rule} (hmode : grammar.mode rule ≠ .silent)
    (text : List Char) : Faultless (ParseError.parseTree rule text) := by
  intro e he
  unfold ParseError.parseTree at he
  cases hparse : Tree.parse rule text with
  | ok tree =>
      rw [hparse] at he
      cases he
  | error error =>
      obtain ⟨place, expected, rfl⟩ := error_of_parse hmode hparse
      rw [hparse] at he
      cases he
      exact id

theorem parse_of_parseTree {rule : Rule} {text : List Char} {tree : Tree}
    (htree : ParseError.parseTree rule text = .ok tree) : Tree.parse rule text = .ok tree := by
  unfold ParseError.parseTree at htree
  exact ok_of_mapError htree

/-- The tree of a whole text holds a tree of what the text is, and the end of the input. -/
theorem root_of_parseTree {root : Rule} (rule : Rule)
    (hroot : (root, rule) ∈ [(Rule.expressionRoot, Rule.expression), (.pathRoot, .path),
      (.document, .value)])
    {text : List Char} {tree : Tree} (htree : ParseError.parseTree root text = .ok tree) :
    ∃ part stop, tree.children = [part, stop] ∧ tree.childrenOf rule = [part] ∧
      Grown grammar part ∧ part.rule = rule := by
  have hroots : ∀ pair ∈ [(Rule.expressionRoot, Rule.expression), (.pathRoot, .path),
      (.document, .value)], grammar.mode pair.1 ≠ .silent ∧ pair.2 ≠ .endOfInput := by
    decide
  obtain ⟨hmode, hother⟩ := hroots _ hroot
  have hparse := parse_of_parseTree htree
  have hgrown := grown_of_parse hparse
  obtain ⟨_, _, hrule, _⟩ := node_of_parse hmode hparse
  obtain ⟨_, covered, place, children⟩ := tree
  obtain rfl : _ = root := hrule
  obtain ⟨part, stop, rfl, hpart, hstop⟩ := root_children hroot hgrown
  refine ⟨part, stop, rfl, ?_, hgrown.child grammar_grounded (List.mem_cons_self ..), hpart⟩
  simp [Node.childrenOf, Node.children, hpart, hstop, hother.symm]

theorem mem_childrenOf {rule : Rule} {tree child : Tree} :
    child ∈ tree.childrenOf rule ↔ child ∈ tree.children ∧ child.rule = rule := by
  simp [Node.childrenOf]

/-! ## Scalars -/

namespace Scalar

theorem faultless_readQuoted (sort : LiteralKind) (tree : Tree) :
    Faultless (readQuoted sort tree) := by
  unfold readQuoted
  dsimp only
  split
  · exact faultless_ok _
  · exact faultless_error id

theorem faultless_readNull (tree : Tree) : Faultless (readNull tree) := by
  unfold readNull
  split
  · exact faultless_ok _
  · split
    · exact faultless_ok _
    · exact faultless_error id

theorem faultless_ofTree {tree : Tree} (hrule : tree.rule ∈ scalarRules) :
    Faultless (ofTree tree) := by
  unfold ofTree
  split
  case h_1 => exact faultless_readNull tree
  case h_2 | h_3 | h_4 | h_12 => exact faultless_ok _
  case h_5 | h_6 | h_7 | h_8 | h_9 =>
    split
    · exact faultless_ok _
    · exact faultless_error id
  case h_10 | h_11 => exact (faultless_readQuoted _ tree).bind fun _ _ => faultless_ok _
  -- There is no other scalar.
  case h_13 => simp_all [scalarRules, literalRules]

end Scalar

/-! ## Paths -/

section Paths

variable {text : List Char} {place : Place} {children : List Tree}

theorem faultless_readPredicate {tree : Tree} (hgrown : Grown grammar tree)
    (hrule : tree.rule ∈ [Rule.itemPredicate, .propertyPredicate]) :
    Faultless (WrittenStep.readPredicate tree) := by
  obtain ⟨rule, text, place, children⟩ := tree
  obtain ⟨body, rfl, hbody⟩ := predicate_children hrule hgrown
  simp only [WrittenStep.readPredicate, Node.childrenOf, Node.children, List.filter_cons, hbody,
    beq_self_eq_true, if_true]
  exact faultless_ok body

theorem WrittenStep.faultless_ofSelector (path : List Char) {tree : Tree}
    (hgrown : Grown grammar tree) (hrule : tree.rule ∈ selectorRules) :
    Faultless (ofSelector path tree) := by
  unfold ofSelector
  split
  case h_1 | h_2 | h_3 | h_5 => exact faultless_ok _
  case h_4 => exact (Scalar.faultless_readQuoted _ tree).bind fun _ _ => faultless_ok _
  case h_6 =>
    dsimp only
    split
    · exact faultless_ok _
    · exact faultless_error id
  case h_7 hpredicate | h_8 hpredicate =>
    exact (faultless_readPredicate hgrown (by simp [hpredicate])).bind fun _ _ => faultless_ok _
  case h_9 => simp_all [selectorRules]

theorem WrittenStep.faultless_ofTree (path : List Char) {tree : Tree}
    (hgrown : Grown grammar tree) (hrule : tree.rule = .pathSegment) :
    Faultless (ofTree path tree) := by
  obtain ⟨rule, text, place, children⟩ := tree
  obtain rfl : rule = .pathSegment := hrule
  obtain ⟨⟨rule, text', place', parts⟩, more, rfl, hselector⟩ := pathSegment_children hgrown
  have hchild := hgrown.child grammar_grounded (List.mem_cons_self ..)
  obtain ⟨inner, rfl, hinner⟩ := selector_children hselector hchild
  have hgrown' := hchild.child grammar_grounded (List.mem_cons_self ..)
  exact (faultless_ofSelector path hgrown' hinner).bind fun _ _ => faultless_ok _

theorem WrittenStep.faultless_ofPath {tree : Tree} (hgrown : Grown grammar tree) :
    Faultless (ofPath tree) := by
  refine faultless_mapM fun segment hsegment => ?_
  obtain ⟨hmem, hrule⟩ := mem_childrenOf.mp hsegment
  exact faultless_ofTree _ (hgrown.child grammar_grounded hmem) hrule

/-- A path has a segment, so there is a path of its steps. -/
theorem Path.faultless_ofTree {tree : Tree} (hgrown : Grown grammar tree)
    (hrule : tree.rule = .path) : Faultless (Path.ofTree tree) := by
  refine (WrittenStep.faultless_ofPath hgrown).bind fun written hwritten => ?_
  refine Faultless.bind (faultless_mapM fun step _ => ?_) fun steps hsteps => ?_
  · unfold readStep
    split
    · exact faultless_ok _
    · exact faultless_error id
  · have hsome : steps ≠ [] := by
      rintro rfl
      obtain rfl : written = [] := List.forall₂_nil_right_iff.mp (mapM_eq_ok hsteps)
      have hnone := List.forall₂_nil_right_iff.mp (mapM_eq_ok hwritten)
      obtain ⟨rule, text, place, children⟩ := tree
      obtain rfl : rule = .path := hrule
      obtain ⟨hsegments, hrules⟩ := path_children hgrown
      cases children with
      | nil => exact hsegments rfl
      | cons segment segments =>
          have hmem : segment ∈ Node.childrenOf Rule.pathSegment
              (.mk .path text place (segment :: segments)) :=
            mem_childrenOf.mpr ⟨List.mem_cons_self .., hrules segment (List.mem_cons_self ..)⟩
          rw [hnone] at hmem
          cases hmem
    cases steps with
    | nil => exact absurd rfl hsome
    | cons step steps => exact faultless_ok _

theorem Path.faultless_read (text : String) : Faultless (Path.read text) := by
  refine (faultless_parseTree (by decide) _).bind fun root hroot => ?_
  obtain ⟨tree, _, _, htrees, hgrown, hrule⟩ := root_of_parseTree .path (by decide) hroot
  rw [htrees]
  exact faultless_ofTree hgrown hrule

theorem Path.faultless_readAll (text : String) : Faultless (Path.readAll text) := by
  refine (faultless_parseTree (by decide) _).bind fun root hroot => ?_
  refine faultless_mapM fun tree htree => ?_
  obtain ⟨hmem, hrule⟩ := mem_childrenOf.mp htree
  exact faultless_ofTree ((grown_of_parse (parse_of_parseTree hroot)).child grammar_grounded hmem)
    hrule

end Paths

/-! ## Values -/

namespace Value

theorem faultless_readName {tree : Tree}
    (hrule : tree.rule ∈ [Rule.stringLiteral, .quotedSymbol, .identifier]) :
    Faultless (readName tree) := by
  unfold readName
  split
  case h_1 => exact faultless_ok _
  case h_2 | h_3 => exact Scalar.faultless_readQuoted _ tree
  case h_4 => simp_all

theorem faultless_readLabel {tree : Tree} (hgrown : Grown grammar tree)
    (hrule : tree.rule = .label) : Faultless (readLabel tree) := by
  obtain ⟨rule, text, place, children⟩ := tree
  obtain rfl : rule = .label := hrule
  obtain ⟨name, rfl, hname⟩ := label_children hgrown
  exact faultless_readName (List.mem_cons_of_mem _ hname)

theorem faultless_readBlob (tree : Tree) : Faultless (readBlob tree) := by
  unfold readBlob
  split
  · exact faultless_ok _
  · exact faultless_error id

theorem faultless_readClob (tree : Tree) : Faultless (readClob tree) := by
  unfold readClob
  split
  · exact (Scalar.faultless_readQuoted _ _).bind fun _ _ => faultless_ok _
  · exact faultless_ok _

theorem faultless_ofParts {whole body : Tree} {labels : List Tree}
    (hlabels : ∀ label ∈ labels, label.rule = .label ∧ Faultless (readLabel label))
    (hrule : body.rule ≠ .label) (hbody : Faultless (ofBody body)) (names : List String) :
    Faultless (ofParts whole names (labels ++ [body])) := by
  induction labels generalizing names with
  | nil =>
      rw [List.nil_append, ofParts, if_neg hrule]
      exact hbody.bind fun _ _ => faultless_ok _
  | cons label labels ih =>
      obtain ⟨⟨hlabel, hread⟩, hlabels⟩ := List.forall_mem_cons.mp hlabels
      rw [List.cons_append, ofParts, if_pos hlabel]
      exact hread.bind fun name _ => ih hlabels _

theorem faultless_ofItems {items : List Tree} (hitems : ∀ item ∈ items, Faultless (ofTree item)) :
    Faultless (ofItems items) := by
  induction items with
  | nil =>
      rw [ofItems]
      exact faultless_ok _
  | cons item items ih =>
      obtain ⟨hitem, hitems⟩ := List.forall_mem_cons.mp hitems
      rw [ofItems]
      exact hitem.bind fun _ _ => (ih hitems).bind fun _ _ => faultless_ok _

/-- A field with a name and a value, both of which can be read. -/
def FaultlessField (field : Tree) : Prop :=
  ∃ name value, field.children = [name, value] ∧ Faultless (readName name) ∧
    Faultless (ofTree value)

theorem faultless_ofFieldTrees {fields : List Tree}
    (hfields : ∀ field ∈ fields, FaultlessField field) : Faultless (ofFieldTrees fields) := by
  induction fields with
  | nil =>
      rw [ofFieldTrees]
      exact faultless_ok _
  | cons field fields ih =>
      obtain ⟨⟨name, value, hchildren, hname, hvalue⟩, hothers⟩ := List.forall_mem_cons.mp hfields
      obtain ⟨rule, text, place, children⟩ := field
      obtain rfl : children = [name, value] := hchildren
      rw [ofFieldTrees]
      exact hname.bind fun _ _ => hvalue.bind fun _ _ => (ih hothers).bind fun _ _ =>
        faultless_ok _

/-- Smaller trees of values can be read. -/
def FaultlessBelow (tree : Tree) : Prop :=
  ∀ t, sizeOf t < sizeOf tree → Grown grammar t → t.rule = .value → Faultless (ofTree t)

theorem faultless_ofBody {tree : Tree} (hgrown : Grown grammar tree)
    (hrule : tree.rule ∈ valueRules) (hbelow : FaultlessBelow tree) : Faultless (ofBody tree) := by
  obtain ⟨rule, text, place, children⟩ := tree
  have hchild : ∀ t ∈ children, t.rule = .value → Faultless (ofTree t) := fun t ht hvalue =>
    hbelow t (sizeOf_child_lt ht) (hgrown.child grammar_grounded ht) hvalue
  -- Scalars are read without their children; the other rules have a reader each.
  by_cases hscalar : rule ∈ scalarRules
  · have hread : Faultless (Scalar.ofTree (.mk rule text place children)) :=
      Scalar.faultless_ofTree hscalar
    rw [ofBody]
    · exact hread.bind fun _ _ => faultless_ok _
    all_goals
      intro _ _ _ heq
      cases heq
      exact absurd hscalar (by decide)
  · simp only [valueRules, Node.rule, List.mem_append, hscalar, or_false, List.mem_cons,
      List.not_mem_nil] at hrule
    rcases hrule with rfl | rfl | rfl | rfl | rfl
    · rw [ofBody]
      have hitems := container_children .value (by decide) hgrown
      exact (faultless_ofItems fun t ht => hchild t ht (hitems t ht)).bind fun _ _ =>
        faultless_ok _
    · rw [ofBody]
      have hitems := container_children .value (by decide) hgrown
      exact (faultless_ofItems fun t ht => hchild t ht (hitems t ht)).bind fun _ _ =>
        faultless_ok _
    · rw [ofBody]
      have hfields := container_children .structField (by decide) hgrown
      refine (faultless_ofFieldTrees fun field hfield => ?_).bind fun _ _ => faultless_ok _
      have hsize : sizeOf field < sizeOf (Node.mk Rule.structValue text place children) :=
        sizeOf_child_lt hfield
      have hfieldGrown := hgrown.child grammar_grounded hfield
      have hfieldRule := hfields field hfield
      obtain ⟨rule, text', place', parts⟩ := field
      obtain rfl : rule = .structField := hfieldRule
      obtain ⟨name, value, rfl, hname, hvalue⟩ := structField_children hfieldGrown
      refine ⟨name, value, rfl, faultless_readName hname, ?_⟩
      have hmem : value ∈ (Node.mk Rule.structField text' place' [name, value]).children := by
        simp [Node.children]
      exact hbelow value (Nat.lt_trans (sizeOf_child_lt hmem) hsize)
        (hfieldGrown.child grammar_grounded hmem) hvalue
    · rw [ofBody]
      exact (faultless_readBlob _).bind fun _ _ => faultless_ok _
    · rw [ofBody]
      exact (faultless_readClob _).bind fun _ _ => faultless_ok _

theorem faultless_ofTree {tree : Tree} (hgrown : Grown grammar tree) (hrule : tree.rule = .value) :
    Faultless (ofTree tree) := by
  induction hsize : sizeOf tree using Nat.strongRecOn generalizing tree with
  | ind size ih =>
      subst hsize
      obtain ⟨rule, text, place, children⟩ := tree
      obtain rfl : rule = .value := hrule
      obtain ⟨labels, body, rfl, hlabels, hbody⟩ := value_children hgrown
      have hmem : body ∈ labels ++ [body] := by simp
      have hsmaller : sizeOf body < sizeOf (Node.mk Rule.value text place (labels ++ [body])) :=
        sizeOf_child_lt hmem
      have hother : ∀ rule ∈ valueRules, rule ≠ .label := by
        decide
      rw [ofTree]
      refine faultless_ofParts (fun label hlabel => ⟨hlabels label hlabel, ?_⟩) (hother _ hbody) ?_ []
      · exact faultless_readLabel
          (hgrown.child grammar_grounded (List.mem_append_left _ hlabel)) (hlabels label hlabel)
      · refine faultless_ofBody (hgrown.child grammar_grounded hmem) hbody ?_
        intro t hlt hgrown' hrule'
        exact ih _ (Nat.lt_trans hlt hsmaller) hgrown' hrule' rfl

theorem faultless_read (text : String) : Faultless (read text) := by
  refine (faultless_parseTree (by decide) _).bind fun root hroot => ?_
  obtain ⟨tree, stop, hchildren, _, hgrown, hrule⟩ := root_of_parseTree .value (by decide) hroot
  rw [hchildren]
  exact faultless_ofTree hgrown hrule

end Value

end DocQuery
