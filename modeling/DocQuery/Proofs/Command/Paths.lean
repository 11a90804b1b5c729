import DocQuery.Command.Run
import DocQuery.Proofs.Expression.Sessions
import DocQuery.Proofs.Grammar.Attempts
import DocQuery.Proofs.Grammar.Prefixes
import DocQuery.Proofs.Language.Defects

/-!
# Three ways to follow a path

A path can be followed by itself, as a query without predicates, and as an expression.  The first
stops at the first step that finds nothing and the second goes on from everything it has found, but
what the first one finds always stands first in what the second one has found.  The third one comes
to the same path: where the rule for whole paths has matched a path, the rule for whole expressions
comes to the same place, all other alternatives being refused there by the first slash.

Main names:

* `Selector.keyIn?` — the key of what a selector finds;
* `Path.toQuery`, `Query.reach` — a path as a query, and what a query without predicates reaches;
* `Expression.read_path` — a text of a path read as an expression;
* `Path.evaluators_agree` — the main result.
-/

namespace DocQuery

open Grammar DocQuery.Language

/-! ## A path as a query -/

/-- The key of the child that a selector finds in a container. -/
def Selector.keyIn? : Selector → Value → Option Key
  | .property (some name), _ => some (.property name)
  | .property none, .struct _ fields => fields.head?.map fun field => .property field.1
  | .property none, _ => none
  | .item index, _ => some (.item (index.getD 0))

/-- The query with the selectors of a path. -/
def Path.toQuery (p : Path) : Query :=
  ⟨p.steps.map fun step => .plain step.selector⟩

/-- Whether a step of a path is a wildcard. -/
def Path.hasWildcard (p : Path) : Bool :=
  p.steps.any fun step => step.selector.isWildcard

theorem Path.names_of_hasWildcard {p : Path} (hnames : p.hasWildcard = false) :
    ∀ step ∈ p.first :: p.rest, step.selector.isWildcard = false := by
  simpa [Path.hasWildcard, Path.steps] using hnames

namespace QueryStep

theorem expandAll_plain (context : Context) (s : Selector) (containers : List Value) :
    expandAll context (.plain s) containers = pure (containers.flatMap (selected s)) := by
  induction containers with
  | nil => rfl
  | cons container containers ih =>
      rw [expandAll, ih]
      rfl

theorem find?_fieldMatches (name : String) (fields : List (String × Value)) :
    (fieldMatches fields).find? (·.1 = .property name) =
      (Value.fieldOf name fields).map fun v => (.property name, v) := by
  induction fields with
  | nil => rfl
  | cons field fields ih =>
      obtain ⟨name', v⟩ := field
      unfold fieldMatches Value.fieldOf at ih ⊢
      by_cases hname : name' = name
      · simp [hname]
      · simpa [hname] using ih

/-- What a selector finds is what it selects first in a query. -/
theorem head?_selected {s : Selector} {container found : Value}
    (hfound : s.apply container = .ok (some found)) :
    ∃ key, s.keyIn? container = some key ∧ (selected s container).head? = some (key, found) := by
  -- The cases are those of `Selector.apply`; a wildcard hits the first child, which is also the
  -- first of all that are selected.
  unfold Selector.apply at hfound
  split at hfound
  · rename_i name names fields
    refine ⟨.property name, rfl, ?_⟩
    rw [selected, find?_fieldMatches, Except.ok.inj hfound]
    rfl
  · rename_i names fields
    cases fields with
    | nil => cases hfound
    | cons field fields =>
        cases hfound
        exact ⟨.property field.1, rfl, rfl⟩
  · rename_i index names form items
    cases index with
    | none =>
        cases items with
        | nil => cases hfound
        | cons item items =>
            cases hfound
            exact ⟨.item 0, rfl, rfl⟩
    | some index =>
        have hitem : items[index]? = some found := Except.ok.inj hfound
        refine ⟨.item index, rfl, ?_⟩
        rw [selected, hitem]
        rfl
  · split at hfound <;> cases hfound

/-- Without a wildcard there is one value at most, and none where a selector does not find any. -/
theorem selected_of_name {s : Selector} (hname : s.isWildcard = false) (container : Value) :
    (∃ key found, s.apply container = .ok (some found) ∧
        selected s container = [(key, found)]) ∨
      ((∀ found, s.apply container ≠ .ok (some found)) ∧ selected s container = []) := by
  -- A name or an index selects at most one child, from a container of its own sort.
  cases s with
  | property name =>
      cases name with
      | none => cases hname
      | some name =>
          cases container with
          | struct names fields =>
              rw [selected, Selector.apply, find?_fieldMatches]
              cases hfield : Value.fieldOf name fields with
              | none => exact Or.inr ⟨by simp, rfl⟩
              | some v => exact Or.inl ⟨.property name, v, rfl, rfl⟩
          | scalar names content | sequence names form items =>
              refine Or.inr ⟨fun found hfound => ?_, rfl⟩
              simp only [Selector.apply] at hfound
              split at hfound <;> cases hfound
  | item index =>
      cases index with
      | none => cases hname
      | some index =>
          cases container with
          | sequence names form items =>
              rw [selected, Selector.apply]
              cases hitem : items[index]? with
              | none => exact Or.inr ⟨by simp [hitem], rfl⟩
              | some v => exact Or.inl ⟨.item index, v, by simp [hitem], rfl⟩
          | scalar names content | struct names fields =>
              refine Or.inr ⟨fun found hfound => ?_, rfl⟩
              simp only [Selector.apply] at hfound
              split at hfound <;> cases hfound

end QueryStep

namespace Query

open QueryStep

/-- What steps without predicates reach from several values. -/
def reach : List Step → List Match → List Match
  | [], reached => reached
  | step :: steps, reached =>
    reach steps ((reached.map Prod.snd).flatMap (selected step.selector))

theorem selectFrom_plain (context : Context) (steps : List Step) (reached : List Match) :
    selectFrom context (steps.map fun step => .plain step.selector) reached =
      pure (reach steps reached) := by
  induction steps generalizing reached with
  | nil => rfl
  | cons step steps ih =>
      rw [List.map_cons, selectFrom, expandAll_plain, pure_bind, ih]
      rfl

theorem select_toQuery (context : Context) (p : Path) :
    p.toQuery.select context =
      pure (reach p.rest (selected p.first.selector context.document)) := by
  show (expand context (.plain p.first.selector) context.document >>= _) = _
  exact selectFrom_plain context p.rest _

/-- Nothing is reached from nothing. -/
theorem reach_nil (steps : List Step) : reach steps [] = [] := by
  induction steps with
  | nil => rfl
  | cons step steps ih => exact ih

/-- Following a step finds a value, in which the other steps are followed. -/
theorem follow_eq_hit {step : Step} {steps : List Step} {w container v : Value}
    (hfollow : step.follow steps w = .ok (.hit container v)) :
    ∃ found, step.selector.apply w = .ok (some found) ∧
      ((steps = [] ∧ container = w ∧ v = found) ∨
        ∃ next others, steps = next :: others ∧ next.follow others found = .ok (.hit container v)) := by
  rw [Step.follow.eq_def] at hfollow
  obtain ⟨result, happly, hfollow⟩ := bind_eq_ok hfollow
  cases result with
  | none => cases hrequired : step.required <;> simp [hrequired, pure, Except.pure] at hfollow
  | some found =>
      refine ⟨found, happly, ?_⟩
      cases steps with
      | nil =>
          cases hfollow
          exact Or.inl ⟨rfl, rfl, rfl⟩
      | cons next others => exact Or.inr ⟨next, others, rfl, hfollow⟩

theorem follow_of_found {step next : Step} {others : List Step} {w found : Value}
    (happly : step.selector.apply w = .ok (some found)) :
    step.follow (next :: others) w = next.follow others found := by
  rw [Step.follow, happly]
  rfl

/-- What stands first leads to what is found by following the steps from it. -/
theorem head?_reach {step : Step} {steps : List Step} {w container v : Value}
    (hfollow : step.follow steps w = .ok (.hit container v)) (others : List Match) :
    ∃ last key, (step :: steps).getLast? = some last ∧ last.selector.keyIn? container = some key ∧
      (reach steps (selected step.selector w ++ others)).head? = some (key, v) := by
  -- The other matches stay behind those of the first one, so the first stays first at every step.
  induction steps generalizing step w others with
  | nil =>
      obtain ⟨found, happly, ⟨_, rfl, rfl⟩ | ⟨next, later, heq, _⟩⟩ := follow_eq_hit hfollow
      · obtain ⟨key, hkey, hhead⟩ := head?_selected happly
        refine ⟨step, key, rfl, hkey, ?_⟩
        rw [reach, List.head?_append, hhead]
        rfl
      · cases heq
  | cons next steps ih =>
      obtain ⟨found, happly, ⟨heq, _⟩ | ⟨_, _, heq, hfollow⟩⟩ := follow_eq_hit hfollow
      · cases heq
      · cases heq
        obtain ⟨key, _, hhead⟩ := head?_selected happly
        obtain ⟨more, hmore⟩ := List.head?_eq_some_iff.mp hhead
        obtain ⟨last, key', hlast, hkey', hreach⟩ :=
          ih hfollow (((more ++ others).map Prod.snd).flatMap (selected next.selector))
        refine ⟨last, key', by rw [List.getLast?_cons_cons]; exact hlast, hkey', ?_⟩
        rw [reach, hmore]
        exact hreach

/-- Steps without wildcards reach what is found by following them, and nothing else. -/
theorem reach_of_names {step : Step} {steps : List Step} (w : Value)
    (hnames : ∀ s ∈ step :: steps, s.selector.isWildcard = false) :
    (∃ container v key, step.follow steps w = .ok (.hit container v) ∧
        reach steps (selected step.selector w) = [(key, v)]) ∨
      ((∀ container v, step.follow steps w ≠ .ok (.hit container v)) ∧
        reach steps (selected step.selector w) = []) := by
  induction steps generalizing step w with
  | nil =>
      rcases selected_of_name (hnames step (List.mem_cons_self ..)) w with
        ⟨key, found, happly, hselected⟩ | ⟨hnone, hselected⟩
      · refine Or.inl ⟨w, found, key, ?_, hselected⟩
        rw [Step.follow, happly]
        rfl
      · refine Or.inr ⟨fun container v hfollow => ?_, hselected⟩
        obtain ⟨found, happly, _⟩ := follow_eq_hit hfollow
        exact hnone found happly
  | cons next steps ih =>
      obtain ⟨hname, hothers⟩ := List.forall_mem_cons.mp hnames
      rcases selected_of_name hname w with ⟨key, found, happly, hselected⟩ | ⟨hnone, hselected⟩
      -- One child goes on to the next step; without a child there is none later either.
      · rw [follow_of_found happly, reach, hselected]
        simpa using ih found hothers
      · refine Or.inr ⟨fun container v hfollow => ?_, ?_⟩
        · obtain ⟨found, happly, _⟩ := follow_eq_hit hfollow
          exact hnone found happly
        · rw [reach, hselected]
          exact reach_nil steps

end Query

/-! ## A path as an expression -/

/-- The cursor after the blanks that may stand at another one. -/
abbrev pastBlanks (cursor : Cursor) : Cursor :=
  Context.skip ⟨.loose, true⟩ grammar.blank cursor

/-- The rule for whole texts has matched the rule for its part at the first character that is no
blank, and nothing but blanks follows. -/
theorem Language.IsRoot.meets {root rule : Rule} (hroot : IsRoot root rule) {text : List Char} {tree : Tree}
    (htree : ParseError.parseTree root text = .ok tree) :
    ∃ next part, Meets (grammar.call .loose rule) (pastBlanks (.ofText text)) next [part] ∧
      (pastBlanks next).rest = [] ∧ tree.childrenOf rule = [part] := by
  have hparse := parse_of_parseTree htree
  unfold Tree.parse at hparse
  split at hparse
  case h_2 | h_3 | h_4 => cases hparse
  rename_i last found more attempts hrun
  cases hparse
  rw [Grammar.parse_eq_call, grammar_grounded.call_eq] at hrun
  obtain ⟨children, between, hrun, hnodes⟩ := matched_leave hrun
  rw [Grammar.callBody, hroot.normal, hroot.body] at hrun
  -- The body of a root rule is the start of the input, the rule, and the end of the input.
  obtain ⟨start, nodes, nodes', between, rfl, hstart, hrun⟩ := matched_seq hrun
  obtain ⟨next, parts, stops, between, rfl, hpart, hstop⟩ := matched_seq hrun
  obtain ⟨rfl, rfl⟩ : start = .ofText text ∧ nodes = [] := by
    rw [Pattern.run, if_pos (show (Cursor.ofText text).place.offset = 0 from rfl)] at hstart
    cases hstart
    exact ⟨rfl, rfl⟩
  -- The part leaves one node and the end of the input another, which the reader does not ask for.
  have hmeets := (call_oblivious grammar .loose rule).meets hpart
  obtain ⟨covered, hpasses⟩ := call_splits grammar .loose rule _ _ _ _ _ hpart
  obtain ⟨place, below, rfl, _⟩ := matches_node grammar_grounded hroot.leaves (hpasses.matches hpart)
  obtain ⟨covered', hpasses'⟩ := call_splits grammar .loose .endOfInput _ _ _ _ _ hstop
  obtain ⟨place', below', rfl, hend⟩ :=
    matches_node grammar_grounded (by decide) (hpasses'.matches hstop)
  obtain ⟨rfl, _, hrest⟩ := matches_stop hend
  rw [if_pos (by rw [hroot.normal]; decide)] at hnodes
  obtain ⟨rfl, _⟩ := List.cons.inj hnodes
  exact ⟨next, _, hmeets, hpasses'.rest.trans hrest, childrenOf_root hroot.other rfl rfl _ _⟩

/-- Conversely, what the rule for a part matches in this way is the tree of the whole text. -/
theorem Language.IsRoot.parse {root rule : Rule} (hroot : IsRoot root rule) {text : List Char} {next : Cursor}
    {part : Tree} (hrule : part.rule = rule)
    (hmeets : Meets (grammar.call .loose rule) (pastBlanks (.ofText text)) next [part])
    (hrest : (pastBlanks next).rest = []) :
    ∃ tree, ParseError.parseTree root text = .ok tree ∧ tree.childrenOf rule = [part] := by
  have hstart : Meets ((Pattern.start : Pattern Rule).run grammar.blank ⟨.loose, true⟩
      (grammar.call .loose)) (.ofText text) (.ofText text) [] := fun attempts => rfl
  obtain ⟨text', place', hstop⟩ := meets_node .endOfInput grammar_grounded rfl (meets_stop hrest)
  obtain ⟨text'', place'', hwhole⟩ := meets_node root grammar_grounded hroot.normal
    (hroot.body ▸ meets_seq hstart (meets_seq (meets_call hmeets) (meets_call hstop)))
  obtain ⟨attempts, hrun⟩ := hwhole.exists_run .none
  refine ⟨.mk root text'' place'' [part, .mk .endOfInput text' place' []], ?_,
    childrenOf_root hroot.other hrule rfl _ _⟩
  unfold ParseError.parseTree Tree.parse
  rw [Grammar.parse_eq_call, hrun]
  rfl

/-- A path is taken only at a slash. -/
theorem slash_of_meets {cursor next : Cursor} {tree : Tree}
    (hmeets : Meets (grammar.call .loose .path) cursor next [tree]) :
    ∃ tail, cursor.rest = '/' :: tail := by
  obtain ⟨attempts, hrun⟩ := hmeets.exists_run .none
  obtain ⟨covered, hpasses⟩ := call_splits grammar .loose .path _ _ _ _ _ hrun
  obtain ⟨place, below, _, hbody⟩ :=
    matches_node grammar_grounded (by decide) (hpasses.matches hrun)
  obtain ⟨first, _, others, _, _, hcovered, _, hround, _⟩ := matches_seq (call_splits grammar _) hbody
  obtain ⟨slash, _, segment, _, _, hfirst, _, hslash, _⟩ := matches_seq (call_splits grammar _) hround
  obtain ⟨rfl, _⟩ := matches_text hslash
  rw [hpasses.rest, hcovered, hfirst]
  exact ⟨_, rfl⟩

/-- The tree of an expression that is no more than a path. -/
def loneSelection (text text' text'' : List Char) (place place' place'' : Place) (path : Tree) : Tree :=
  .mk .expression text place
    [.mk .postfixOperand text' place' [.mk .selection text'' place'' [path]]]

/-- Where a path is the whole rest of a text, an expression is no more than the path. -/
theorem meets_loneSelection {cursor next : Cursor} {tree : Tree}
    (hpath : Meets (grammar.call .loose .path) cursor next [tree])
    (hrest : (pastBlanks next).rest = []) :
    ∃ text text' text'' place place' place'',
      Meets (grammar.call .loose .expression) cursor (pastBlanks next)
        [loneSelection text text' text'' place place' place'' tree] := by
  obtain ⟨tail, hslash⟩ := slash_of_meets hpath
  -- Whatever else an operand may be does not begin with a slash, and whatever may stand behind one
  -- is no empty text.
  have hhead : ∀ rule, grammar.onPrefix 8 .loose rule ['/'] = .refused →
      Refuses (grammar.call .loose rule) cursor.rest := by
    intro rule hrefused
    rw [hslash]
    exact refuses_of_prefix grammar_grounded hrefused tail
  have hend : ∀ rule, grammar.isSolid 8 rule = true →
      Refuses (grammar.call .loose rule) (pastBlanks next).rest := by
    intro rule hsolid
    rw [hrest]
    exact refuses_call_nil grammar_grounded hsolid .loose
  -- From the path outwards: selection, primary, postfix operand, operand, expression.
  obtain ⟨text'', place'', hselection⟩ := meets_node Rule.selection grammar_grounded rfl
    (meets_seq (meets_call hpath)
      (meets_optional_none (refuses_seq_left (refuses_call (hend .asKeyword (by decide))))))
  have hprimary : Meets (grammar.call .loose .primary) cursor (pastBlanks next)
      [.mk .selection text'' place'' [tree]] := by
    refine meets_silent .primary grammar_grounded rfl ?_
    refine meets_choice_right (refuses_seq_left ?_) (meets_choice_right ?_ (meets_choice_left ?_))
    · rw [hslash]
      exact refuses_text (by simp)
    · exact refuses_call (hhead .literal (by decide))
    · exact meets_call hselection
  obtain ⟨text', place', hpostfix⟩ := meets_node .postfixOperand grammar_grounded rfl
    (meets_seq_end (meets_call hprimary) hrest
      (meets_optional_none (refuses_call (hend .postfixOperation (by decide)))))
  have hoperand : Meets (grammar.call .loose .operand) cursor (pastBlanks next)
      [.mk .postfixOperand text' place' [.mk .selection text'' place'' [tree]]] := by
    refine meets_silent .operand grammar_grounded rfl ?_
    refine meets_choice_right ?_ (meets_choice_right ?_ (meets_choice_right ?_ ?_))
    · exact refuses_call (hhead .negation (by decide))
    · exact refuses_call (hhead .existence (by decide))
    · exact refuses_call (hhead .concatenation (by decide))
    · exact meets_call hpostfix
  obtain ⟨text, place, hexpression⟩ := meets_node .expression grammar_grounded rfl
    (meets_seq_end (meets_call hoperand) hrest
      (meets_star_none (refuses_seq_left (refuses_call (hend .binaryOperator (by decide))))))
  exact ⟨text, text', text'', place, place', place'', hexpression⟩

namespace Expression

/-- A text of a path, read as an expression, is the reference with that path. -/
theorem read_path {text : String} {p : Path} (hread : Path.read text = .ok p) :
    Expression.read text = pure (.reference ⟨.document, some p, .any⟩) := by
  obtain ⟨root, hroot, hread⟩ := bind_eq_ok hread
  obtain ⟨next, tree, hpath, hrest, htrees⟩ := isRoot_path.meets hroot
  rw [htrees] at hread
  obtain ⟨text₁, text₂, text₃, place₁, place₂, place₃, hexpression⟩ := meets_loneSelection hpath hrest
  have hend : (pastBlanks (pastBlanks next)).rest = [] := by
    rw [pastBlanks, skip_of_nil _ _ hrest]
    exact hrest
  -- The same text is an expression around the path, with nothing but blanks behind it.
  obtain ⟨root', hroot', htrees'⟩ := isRoot_expression.parse rfl hexpression hend
  have hreference : Reference.ofTree (.mk .selection text₃ place₃ [tree]) =
      .ok ⟨.document, some p, .any⟩ := by
    have hrule : tree.rule = .path :=
      (mem_childrenOf.mp (htrees ▸ List.mem_singleton_self tree)).2
    obtain ⟨_, covered, place, children⟩ := tree
    obtain rfl : _ = Rule.path := hrule
    show (Path.ofTree (.mk .path covered place children) >>= _) = _
    rw [show Path.ofTree (.mk .path covered place children) = .ok p from hread]
    rfl
  unfold Expression.read
  rw [hroot']
  show (pure root' >>= _) = _
  rw [pure_bind, htrees']
  show ofTree (loneSelection text₁ text₂ text₃ place₁ place₂ place₃ tree) = _
  unfold loneSelection
  rw [ofTree, ofTree, ofTree, hreference]
  rfl

end Expression

/-! ## The three ways -/

/-- The value of a reference with a path is what the path leads to. -/
theorem Reference.value_path (context : Context) (p : Path) :
    (⟨.document, some p, .any⟩ : Reference).value context =
      (do
        match ← p.select context.document with
        | .hit _ v => return v
        | .fallback _ => return .null .null
        | .miss _ => .error (.selectionMiss p.toText)) := by
  unfold Reference.value Reference.follow Reference.start
  show (p.select context.document >>= _) = (p.select context.document >>= _)
  congr 1
  funext selection
  cases selection with
  | hit container v => simp [Reference.conform, StaticKind.admits, StaticKind.admitsKind, pure, Except.pure]
  | miss container => rfl
  | fallback container => rfl

/-- Following a path and evaluating it as an expression is the same. -/
theorem Command.evaluate_path {settings : Settings} {text input : String} {p : Path}
    {document : Value} (hread : Path.read text = .ok p) (hinput : settings.input = some input)
    (hdocument : settings.format.read input = .ok document) :
    Command.evaluate settings text = Command.selectOne settings text := by
  have hvalue : Command.evaluate settings text =
      ((⟨.document, some p, .any⟩ : Reference).value (settings.context document)).mapError .eval := by
    unfold Command.evaluate
    rw [Expression.read_path hread, hinput]
    show (settings.format.read input >>= _) = _
    rw [hdocument]
    rfl
  have hselected : Command.selectOne settings text =
      (do
        match ← (p.select document).mapError CommandError.eval with
        | .hit _ v => return v
        | .fallback _ => return .null .null
        | .miss _ => .error (.eval (.selectionMiss p.toText))) := by
    unfold Command.selectOne
    rw [hread, hinput]
    show (settings.format.read input >>= _) = _
    rw [hdocument]
    rfl
  rw [hvalue, hselected, Reference.value_path]
  show (p.select document >>= _).mapError _ = _
  rcases p.select document with e | ⟨container, v⟩ | container | container <;> rfl

/-- The ways to follow a path agree. What a path hits is what the query with its selectors finds
first, under the key of the last selector; a query without wildcards finds that and nothing else,
and nothing at all where the path hits nothing. And for every text of a path and every readable
document, selecting by the path and evaluating it as an expression have the same result. -/
theorem Path.evaluators_agree :
    (∀ (p : Path) (context : Context) (cache : Regex.Cache) (container v : Value),
      p.select context.document = .ok (.hit container v) →
      ∃ last key others, p.steps.getLast? = some last ∧
        last.selector.keyIn? container = some key ∧
        outcome (p.toQuery.select context) cache = .ok ((key, v) :: others) ∧
        (p.hasWildcard = false → others = [])) ∧
    (∀ (p : Path) (context : Context) (cache : Regex.Cache), p.hasWildcard = false →
      (∀ container v, p.select context.document ≠ .ok (.hit container v)) →
      outcome (p.toQuery.select context) cache = .ok []) ∧
    ∀ (settings : Settings) (text input : String) (p : Path) (document : Value),
      Path.read text = .ok p → settings.input = some input →
      settings.format.read input = .ok document →
      Command.selectOne settings text = Command.evaluate settings text := by
  refine ⟨?_, ?_, fun settings text input p document hread hinput hdocument =>
    (Command.evaluate_path hread hinput hdocument).symm⟩
  -- A hit is the first of all matches, and without wildcards it is the only one.
  · intro p context cache container v hselect
    obtain ⟨last, key, hlast, hkey, hhead⟩ := Query.head?_reach hselect []
    rw [List.append_nil] at hhead
    obtain ⟨others, hreach⟩ := List.head?_eq_some_iff.mp hhead
    refine ⟨last, key, others, hlast, hkey, ?_, fun hnames => ?_⟩
    · rw [Query.select_toQuery, hreach]
      rfl
    · rcases Query.reach_of_names context.document (Path.names_of_hasWildcard hnames) with
        ⟨_, _, _, _, hone⟩ | ⟨hnone, _⟩
      · rw [hone] at hreach
        exact (List.cons.inj hreach).2.symm
      · exact absurd hselect (hnone container v)
  -- Without a hit there is no match.
  · intro p context cache hnames hnone
    rcases Query.reach_of_names context.document (Path.names_of_hasWildcard hnames) with
      ⟨container, v, _, hselect, _⟩ | ⟨_, hnothing⟩
    · exact absurd hselect (hnone container v)
    · rw [Query.select_toQuery, hnothing]
      rfl

/-- A path to the items of a list, which hits the first one, and a path that finds nothing; and the
text of the first path, both as a path and as an expression. -/
theorem Path.evaluators_agree_items :
    let every : Path := ⟨⟨.property (some "a"), true⟩, [⟨.item none, true⟩]⟩
    let other : Path := ⟨⟨.property (some "b"), true⟩, []⟩
    let items := Value.list [.int 1, .int 2]
    let context : Context := ⟨.ofFields [("a", items)], none, default⟩
    let settings : Settings := ⟨some "{a: [1, 2]}", .plain, 0, default⟩
    every.select context.document = .ok (.hit items (.int 1)) ∧
      (∃ others, outcome (every.toQuery.select context) (.new 0) =
        .ok ((.item 0, .int 1) :: others)) ∧
      other.select context.document = .ok (.miss context.document) ∧
      outcome (other.toQuery.select context) (.new 0) = .ok [] ∧
      Path.read "/a/[*]" = .ok every ∧
      ∃ document, settings.format.read "{a: [1, 2]}" = .ok document ∧
        Command.selectOne settings "/a/[*]" = Command.evaluate settings "/a/[*]" := by
  intro every other items context settings
  obtain ⟨hhits, hmisses, hcommands⟩ := Path.evaluators_agree
  have hhit : every.select context.document = .ok (.hit items (.int 1)) := by
    simp only [Path.select, every, Step.follow]
    rfl
  have hmiss : other.select context.document = .ok (.miss context.document) := by
    simp only [Path.select, other, Step.follow]
    rfl
  have hread : ((Path.read "/a/[*]").toOption.any (· == every)) = true := by
    decide +kernel
  have hdocument : ((settings.format.read "{a: [1, 2]}").toOption.any fun _ => true) = true := by
    decide +kernel
  obtain ⟨last, key, others, hlast, hkey, hfirst, _⟩ := hhits every context (.new 0) _ _ hhit
  obtain rfl := Option.some.inj hlast
  obtain rfl := Option.some.inj hkey
  have hnothing := hmisses other context (.new 0) rfl fun container v hselect => by
    rw [hmiss] at hselect
    cases hselect
  obtain ⟨p, hp, heq⟩ := exists_of_any hread
  obtain rfl := beq_iff_eq.mp heq
  obtain ⟨document, hformat, _⟩ := exists_of_any hdocument
  exact ⟨hhit, ⟨others, hfirst⟩, hmiss, hnothing, hp, document, hformat,
    hcommands settings "/a/[*]" "{a: [1, 2]}" every document hp rfl hformat⟩

end DocQuery
